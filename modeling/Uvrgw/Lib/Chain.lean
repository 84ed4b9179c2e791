import Mathlib.Tactic.Common

/-!
# Recursive descent

A parser reads phrases off a stream of tokens; the state shows one token at a time and remembers that it has
failed. `Chain` is the grammar of operators that are read from the left, and `chain` its parser.
-/

namespace Uvrgw.Lib

variable {T A F σ : Type}

/-! ## Streams and parsers -/

/-- Access to the tokens: the current one, and the step to the next one. -/
structure Reader (σ T : Type) where
  type : σ → T
  advance : σ → σ
  /-- How many steps there can still be. -/
  left : σ → Nat

/-- The tokens that a reader gives. Behind a final one comes nothing. -/
structure TokenStream (R : Reader σ T) where
  tokens : σ → List T
  final : T → Prop
  tokens_final : ∀ s, final (R.type s) → tokens s = [R.type s]
  tokens_step : ∀ s, ¬ final (R.type s) → tokens s = R.type s :: tokens (R.advance s)
  length_le : ∀ s, (tokens s).length ≤ R.left s + 1

namespace TokenStream

variable {R : Reader σ T} (S : TokenStream R)

theorem type_eq {s : σ} {t : T} {rest : List T} (h : S.tokens s = t :: rest) : R.type s = t := by
  by_cases hfinal : S.final (R.type s)
  · rw [S.tokens_final s hfinal] at h
    exact (List.cons.inj h).1
  · rw [S.tokens_step s hfinal] at h
    exact (List.cons.inj h).1

theorem tokens_advance {s : σ} {t u : T} {rest : List T} (h : S.tokens s = t :: u :: rest) :
    S.tokens (R.advance s) = u :: rest := by
  by_cases hfinal : S.final (R.type s)
  · rw [S.tokens_final s hfinal] at h
    cases h
  · rw [S.tokens_step s hfinal] at h
    exact (List.cons.inj h).2

theorem tokens_ne_nil (s : σ) : S.tokens s ≠ [] := by
  by_cases hfinal : S.final (R.type s)
  · rw [S.tokens_final s hfinal]
    simp
  · rw [S.tokens_step s hfinal]
    simp

theorem exists_tokens (s : σ) : ∃ rest, S.tokens s = R.type s :: rest := by
  by_cases hfinal : S.final (R.type s)
  · exact ⟨[], S.tokens_final s hfinal⟩
  · exact ⟨_, S.tokens_step s hfinal⟩

/-- What a parser reads without failing is a phrase, and it reads every phrase in front of a token of `stop`. -/
structure Parses (failed : T) (stop : T → Prop) (G : List T → A → Prop) (P : σ → Option (A × σ)) : Prop where
  sound : ∀ {s s' : σ} {a : A}, P s = some (a, s') → R.type s' ≠ failed →
    ∃ ts, G ts a ∧ S.tokens s = ts ++ S.tokens s'
  complete : ∀ {s : σ} {ts rest : List T} {t : T} {a : A}, G ts a → S.tokens s = ts ++ t :: rest → stop t →
    ∃ s', P s = some (a, s') ∧ S.tokens s' = t :: rest

theorem Parses.mono {S : TokenStream R} {failed : T} {stop stop' : T → Prop} {G : List T → A → Prop}
    {P : σ → Option (A × σ)} (h : S.Parses failed stop G P) (hstop : ∀ t, stop' t → stop t) :
    S.Parses failed stop' G P where
  sound := h.sound
  complete := fun hG htokens ht => h.complete hG htokens (hstop _ ht)

end TokenStream

/-! ## Operators from the left -/

/-- `sub {op sub}`. -/
inductive Chain (op : T → Option F) (node : F → A → A → A) (sub : List T → A → Prop) : List T → A → Prop where
  | one {ts : List T} {a : A} (h : sub ts a) : Chain op node sub ts a
  | snoc {ts us : List T} {a b : A} {t : T} {f : F} (h : Chain op node sub ts a) (ht : op t = some f)
      (hu : sub us b) : Chain op node sub (ts ++ t :: us) (node f a b)

section Parser

variable (R : Reader σ T) (op : T → Option F) (node : F → A → A → A) (sub : σ → Option (A × σ))

/-- The loop, behind the first phrase. -/
def chainLoop : Nat → A → σ → Option (A × σ)
  | 0, a, s => some (a, s)
  | fuel + 1, a, s =>
    match op (R.type s) with
    | none => some (a, s)
    | some f =>
      match sub (R.advance s) with
      | none => none
      | some (b, s) => chainLoop fuel (node f a b) s

def chain (s : σ) : Option (A × σ) :=
  match sub s with
  | none => none
  | some (a, s) => chainLoop R op node sub (R.left s) a s

variable {R op node sub} {S : TokenStream R} {failed : T} {stop : T → Prop} {G : List T → A → Prop}

theorem chainLoop_none {a : A} {s : σ} (h : op (R.type s) = none) (fuel : Nat) :
    chainLoop R op node sub fuel a s = some (a, s) := by
  cases fuel with
  | zero => rfl
  | succ fuel =>
    unfold chainLoop
    rw [h]

theorem chainLoop_some {a b : A} {s s' : σ} {f : F} (h : op (R.type s) = some f)
    (hsub : sub (R.advance s) = some (b, s')) (fuel : Nat) :
    chainLoop R op node sub (fuel + 1) a s = chainLoop R op node sub fuel (node f a b) s' := by
  rw [chainLoop]
  rw [h]
  dsimp only
  rw [hsub]

/-- The loop adds phrases to the chain that has been read before it. -/
theorem chainLoop_sound (hsub : S.Parses failed stop G sub) (hfailed : op failed = none)
    (hfinal : ∀ t f, op t = some f → ¬ S.final t) {fuel : Nat} {a a' : A} {s s' : σ} {ts : List T}
    (ha : Chain op node G ts a) (h : chainLoop R op node sub fuel a s = some (a', s')) (hs' : R.type s' ≠ failed) :
    ∃ us, Chain op node G (ts ++ us) a' ∧ S.tokens s = us ++ S.tokens s' := by
  induction fuel generalizing a s ts with
  | zero =>
    cases h
    exact ⟨[], by simpa using ha, rfl⟩
  | succ fuel ih =>
    unfold chainLoop at h
    split at h
    · cases h
      exact ⟨[], by simpa using ha, rfl⟩
    · rename_i f hf
      split at h
      · cases h
      · rename_i b s₁ hb
        have hs₁ : R.type s₁ ≠ failed := by
          intro heq
          rw [chainLoop_none (by rw [heq]; exact hfailed)] at h
          cases h
          exact hs' heq
        obtain ⟨us, hus, htokens⟩ := hsub.sound hb hs₁
        obtain ⟨vs, hvs, hrest⟩ := ih (ha.snoc hf hus) h
        refine ⟨R.type s :: us ++ vs, by simpa using hvs, ?_⟩
        rw [S.tokens_step s (hfinal _ f hf), htokens, hrest]
        simp

/-- Reading a chain: its first phrase, and then as many rounds as it has operators. -/
theorem chainLoop_reads (hsub : S.Parses failed stop G sub) (hstop : ∀ t f, op t = some f → stop t)
    {ts : List T} {a : A} (h : Chain op node G ts a) {s : σ} {t : T} {rest : List T}
    (htokens : S.tokens s = ts ++ t :: rest) (ht : stop t) :
    ∃ a₀ s₀ s₁ n, sub s = some (a₀, s₀) ∧ S.tokens s₁ = t :: rest ∧
      n + (t :: rest).length ≤ (S.tokens s₀).length ∧
      ∀ fuel, chainLoop R op node sub (n + fuel) a₀ s₀ = chainLoop R op node sub fuel a s₁ := by
  induction h generalizing s t rest with
  | one h =>
    obtain ⟨s', hs', hrest⟩ := hsub.complete h htokens ht
    exact ⟨_, s', s', 0, hs', hrest, by rw [hrest]; omega, fun fuel => by rw [Nat.zero_add]⟩
  | @snoc ts us a b t' f _ hf hu ih =>
    have htokens' : S.tokens s = ts ++ t' :: (us ++ t :: rest) := by simpa using htokens
    obtain ⟨a₀, s₀, s₁, n, hsub₀, hs₁, hn, hloop⟩ := ih htokens' (hstop t' f hf)
    have hne : us ++ t :: rest ≠ [] := by simp
    obtain ⟨u, us', hus⟩ := List.exists_cons_of_ne_nil hne
    have hnext : S.tokens (R.advance s₁) = us ++ t :: rest := by
      rw [hus] at hs₁ ⊢
      exact S.tokens_advance hs₁
    obtain ⟨s₂, hb, hs₂⟩ := hsub.complete hu hnext ht
    refine ⟨a₀, s₀, s₂, n + 1, hsub₀, hs₂, ?_, fun fuel => ?_⟩
    · simp only [List.length_cons, List.length_append] at hn ⊢
      omega
    · rw [Nat.add_assoc, Nat.add_comm 1 fuel, hloop]
      exact chainLoop_some (by rw [S.type_eq hs₁]; exact hf) hb fuel

/-- The parser of a chain, from the parser of its phrases. -/
theorem parses_chain (hsub : S.Parses failed stop G sub) (hfailed : op failed = none)
    (hfinal : ∀ t f, op t = some f → ¬ S.final t) (hstop : ∀ t f, op t = some f → stop t) :
    S.Parses failed (fun t => stop t ∧ op t = none) (Chain op node G) (chain R op node sub) where
  sound := by
    intro s s' a h hs'
    unfold chain at h
    split at h
    · cases h
    · rename_i a₀ s₀ ha₀
      have hs₀ : R.type s₀ ≠ failed := by
        intro heq
        rw [chainLoop_none (by rw [heq]; exact hfailed)] at h
        cases h
        exact hs' heq
      obtain ⟨ts, hts, htokens⟩ := hsub.sound ha₀ hs₀
      obtain ⟨us, hus, hrest⟩ := chainLoop_sound hsub hfailed hfinal (.one hts) h hs'
      exact ⟨ts ++ us, hus, by rw [htokens, hrest, List.append_assoc]⟩
  complete := by
    intro s ts rest t a h htokens ht
    obtain ⟨a₀, s₀, s₁, n, hsub₀, hs₁, hn, hloop⟩ := chainLoop_reads hsub hstop h htokens ht.1
    have hfuel : ∃ fuel, R.left s₀ = n + fuel := by
      have hlength := S.length_le s₀
      simp only [List.length_cons] at hn
      exact ⟨R.left s₀ - n, by omega⟩
    obtain ⟨fuel, hfuel⟩ := hfuel
    refine ⟨s₁, ?_, hs₁⟩
    unfold chain
    rw [hsub₀]
    dsimp only
    rw [hfuel, hloop, chainLoop_none (by rw [S.type_eq hs₁]; exact ht.2)]

/-- A parser that gives up less often. -/
def GivesUpLess (P Q : σ → Option (A × σ)) : Prop := ∀ s r, P s = some r → Q s = some r

theorem chain_mono {sub' : σ → Option (A × σ)} (h : GivesUpLess sub sub') :
    GivesUpLess (chain R op node sub) (chain R op node sub') := by
  have hloop : ∀ fuel a s r, chainLoop R op node sub fuel a s = some r →
      chainLoop R op node sub' fuel a s = some r := by
    intro fuel
    induction fuel with
    | zero => exact fun a s r hr => hr
    | succ fuel ih =>
      intro a s r hr
      unfold chainLoop at hr ⊢
      split at hr
      · exact hr
      · split at hr
        · cases hr
        · rename_i b s' hb
          rw [h _ _ hb]
          exact ih _ _ _ hr
  intro s r hr
  unfold chain at hr ⊢
  split at hr
  · cases hr
  · rename_i a s' ha
    rw [h _ _ ha]
    exact hloop _ _ _ _ hr

end Parser

/-! ## Phrases under a map -/

section Image

variable {B : Type}

/-- The phrases of `G'` are those of `G`, with what is built from them mapped by `h`. -/
def Image (h : A → B) (G : List T → A → Prop) (G' : List T → B → Prop) : Prop :=
  ∀ ts b, G' ts b ↔ ∃ a, G ts a ∧ h a = b

theorem Image.chain {h : A → B} {op : T → Option F} {node : F → A → A → A} {node' : F → B → B → B}
    {sub : List T → A → Prop} {sub' : List T → B → Prop} (hsub : Image h sub sub')
    (hnode : ∀ f a b, h (node f a b) = node' f (h a) (h b)) :
    Image h (Chain op node sub) (Chain op node' sub') := by
  intro ts b
  constructor
  · intro hb
    induction hb with
    | one hb =>
      obtain ⟨a, ha, rfl⟩ := (hsub _ _).mp hb
      exact ⟨a, .one ha, rfl⟩
    | snoc _ ht hu ih =>
      obtain ⟨a, ha, rfl⟩ := ih
      obtain ⟨c, hc, rfl⟩ := (hsub _ _).mp hu
      exact ⟨_, .snoc ha ht hc, hnode _ a c⟩
  · rintro ⟨a, ha, rfl⟩
    induction ha with
    | one ha => exact .one ((hsub _ _).mpr ⟨_, ha, rfl⟩)
    | snoc _ ht hu ih =>
      rw [hnode]
      exact .snoc ih ht ((hsub _ _).mpr ⟨_, hu, rfl⟩)

/-- Phrases over other tokens. -/
theorem Chain.map_iff {T' : Type} {g : T → T'} {op : T' → Option F} {node : F → A → A → A}
    {sub : List T' → A → Prop} {sub' : List T → A → Prop} (hsub : ∀ ts a, sub (ts.map g) a ↔ sub' ts a)
    (ts : List T) (a : A) : Chain op node sub (ts.map g) a ↔ Chain (fun t => op (g t)) node sub' ts a := by
  constructor
  · intro h
    generalize hus : ts.map g = us at h
    induction h generalizing ts with
    | one h =>
      subst hus
      exact .one ((hsub _ _).mp h)
    | snoc _ ht hu ih =>
      obtain ⟨ts₁, rest, rfl, h₁, hrest⟩ := List.map_eq_append_iff.mp hus
      obtain ⟨t, ts₂, rfl, rfl, h₂⟩ := List.map_eq_cons_iff.mp hrest
      subst h₂
      exact .snoc (ih ts₁ h₁) ht ((hsub _ _).mp hu)
  · intro h
    induction h with
    | one h => exact .one ((hsub _ _).mpr h)
    | snoc _ ht hu ih =>
      rw [List.map_append, List.map_cons]
      exact .snoc ih ht ((hsub _ _).mpr hu)

end Image

end Uvrgw.Lib
