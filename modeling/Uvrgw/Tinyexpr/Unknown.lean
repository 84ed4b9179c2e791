import Uvrgw.Tinyexpr.Compile

/-!
# Where a failing search stops the parser

Two parsers that differ in their search for names go the same way until one of them does not find a name. It stops
there: what it gives up to is the text behind this name.
-/

namespace Uvrgw.Tinyexpr

open Uvrgw.Lib

variable {D V U : Type} {C : Doubles D U} {find find' : Find V U}

/-! ## The first error of a text -/

/-- The first token that is an error ends in front of `next`. -/
inductive FirstError (C : Doubles D U) (find : Find V U) : List Char → List Char → Prop where
  | here {text : List Char} (h : (nextToken C find text).1 = .tokError) :
      FirstError C find text (nextToken C find text).2
  | there {text next : List Char} (h : (nextToken C find text).1.final = false)
      (hnext : FirstError C find (nextToken C find text).2 next) : FirstError C find text next

/-- The same, with the token that the parser looks at. -/
def State.FirstError (C : Doubles D U) (find : Find V U) (s : State D V U) (next : List Char) : Prop :=
  s.type = .tokError ∧ s.next = next ∨ s.type.final = false ∧ Tinyexpr.FirstError C find s.next next

/-- From `s` the parser comes to `t` by reading tokens. -/
def Leads (C : Doubles D U) (find : Find V U) (s t : State D V U) : Prop :=
  ∀ next, t.FirstError C find next → s.FirstError C find next

/-- The parser has stopped at the first error behind `s`. -/
def Stopped (C : Doubles D U) (find : Find V U) (s t : State D V U) : Prop :=
  t.type = .tokError ∧ s.FirstError C find t.next

variable {s t u u' : State D V U}

theorem Leads.refl (s : State D V U) : Leads C find s s := fun _ h => h

theorem Leads.trans (h : Leads C find s t) (h' : Leads C find t u) : Leads C find s u :=
  fun next hu => h next (h' next hu)

theorem leads_advance (C : Doubles D U) (find : Find V U) (h : s.type.final = false) :
    Leads C find s (s.advance C find) := by
  intro next ht
  refine .inr ⟨h, ?_⟩
  rcases ht with ⟨htype, rfl⟩ | ⟨hfinal, hnext⟩
  · exact .here htype
  · exact .there hfinal hnext

theorem Stopped.of_leads (h : Leads C find s t) (ht : Stopped C find t u) : Stopped C find s u := ⟨ht.1, h _ ht.2⟩

theorem stopped_refl (h : s.type = .tokError) : Stopped C find s s := ⟨h, .inl ⟨h, rfl⟩⟩

/-- Two parsers have come from `s` to `t` and to `t'`: to the same place, or the second one has stopped. -/
def Together (C : Doubles D U) (find : Find V U) (s t t' : State D V U) : Prop :=
  t' = t ∧ (t.type ≠ .tokError → Leads C find s t) ∨ Stopped C find s t'

theorem Together.of_leads {t' : State D V U} (h : Leads C find s t) (ht : Together C find t u t') :
    Together C find s u t' := by
  rcases ht with ⟨rfl, hlead⟩ | hstop
  · exact .inl ⟨rfl, fun htype => h.trans (hlead htype)⟩
  · exact .inr (hstop.of_leads h)

/-! ## Parsers side by side -/

/-- Where `find` does not give the same token as `find'`, it gives an error. -/
def Narrower (C : Doubles D U) (find find' : Find V U) : Prop :=
  ∀ text, nextToken C find text = nextToken C find' text ∨ (nextToken C find text).1 = .tokError

theorem Narrower.advance (h : Narrower C find find') (s : State D V U) :
    s.advance C find = s.advance C find' ∨ (s.advance C find).type = .tokError := by
  rcases h s.next with heq | herror
  · exact .inl (by rw [State.advance, heq]; rfl)
  · exact .inr herror

/-- Where `P'` does not give up, `P` goes the same way until it stops. -/
structure Follow (C : Doubles D U) (find : Find V U) (P P' : Parser D V U) : Prop where
  goes : ∀ {s t : State D V U} {a : Expr D V U}, P' s = some (a, t) →
    ∃ a' t', P s = some (a', t') ∧ Together C find s t t'
  stops : ∀ {s₀ s : State D V U} {r : Expr D V U × State D V U}, P' s₀ = some r → s.type = .tokError →
    ∃ a' t', P s = some (a', t') ∧ t'.type = .tokError ∧ t'.next = s.next

theorem Follow.after {P P' : Parser D V U} (h : Follow C find P P') (hfind : Narrower C find find')
    {s t : State D V U} {a : Expr D V U} (hs : s.type.final = false) (hP : P' (s.advance C find') = some (a, t)) :
    ∃ a' t', P (s.advance C find) = some (a', t') ∧ Together C find s t t' := by
  have hlead := leads_advance C find hs
  rcases hfind.advance s with heq | herror
  · rw [← heq] at hP
    obtain ⟨a', t', hP', ht⟩ := h.goes hP
    exact ⟨a', t', hP', ht.of_leads hlead⟩
  · obtain ⟨a', t', hP', htype, hnext⟩ := h.stops hP herror
    refine ⟨a', t', hP', .inr ⟨htype, ?_⟩⟩
    rw [hnext]
    exact ((stopped_refl herror).of_leads hlead).2

/-! ## The levels of operators -/

section Chains

variable {F : Type} {op : Tok D V U → Option F} {node : F → Expr D V U → Expr D V U → Expr D V U}
  {P P' : Parser D V U}

theorem chainLoop_error (herror : op .tokError = none) (hs : s.type = .tokError) (fuel : Nat) (a : Expr D V U) :
    chainLoop (reader C find) op node P fuel a s = some (a, s) := by
  refine chainLoop_none ?_ fuel
  change op s.type = none
  rw [hs, herror]

theorem chainLoop_follow (h : Follow C find P P') (hfind : Narrower C find find') (herror : op .tokError = none)
    (hfinal : ∀ t f, op t = some f → t.final = false) {fuel : Nat} {a b : Expr D V U} (a' : Expr D V U)
    (hloop : chainLoop (reader C find') op node P' fuel a s = some (b, t)) :
    ∃ b' t', chainLoop (reader C find) op node P fuel a' s = some (b', t') ∧ Together C find s t t' := by
  induction fuel generalizing s a a' with
  | zero =>
    cases hloop
    exact ⟨a', t, rfl, .inl ⟨rfl, fun _ => .refl t⟩⟩
  | succ fuel ih =>
    unfold chainLoop at hloop
    split at hloop
    · rename_i hop
      cases hloop
      rw [chainLoop_none (R := reader C find) hop]
      exact ⟨a', t, rfl, .inl ⟨rfl, fun _ => .refl t⟩⟩
    · rename_i f hop
      split at hloop
      · cases hloop
      · rename_i c s₁ hP'
        obtain ⟨c', s₁', hP, htogether⟩ := h.after hfind (hfinal _ f hop) hP'
        rw [chainLoop_some (R := reader C find) hop hP]
        rcases htogether with ⟨rfl, hlead⟩ | hstop
        · by_cases htype : s₁'.type = .tokError
          · rw [chainLoop_error herror htype] at hloop
            cases hloop
            exact ⟨_, _, chainLoop_error herror htype _ _, .inl ⟨rfl, hlead⟩⟩
          · obtain ⟨b', t', ht', htog⟩ := ih (node f a' c') hloop
            exact ⟨b', t', ht', htog.of_leads (hlead htype)⟩
        · exact ⟨_, _, chainLoop_error herror hstop.1 _ _, .inr hstop⟩

theorem follow_chain (h : Follow C find P P') (hfind : Narrower C find find') (herror : op .tokError = none)
    (hfinal : ∀ t f, op t = some f → t.final = false) :
    Follow C find (chain (reader C find) op node P) (chain (reader C find') op node P') where
  goes := by
    intro s t a hchain
    unfold chain at hchain ⊢
    split at hchain
    · cases hchain
    · rename_i a₀ s₀ hP'
      obtain ⟨a₀', s₀', hP, htogether⟩ := h.goes hP'
      rw [hP]
      dsimp only
      rcases htogether with ⟨rfl, hlead⟩ | hstop
      · by_cases htype : s₀'.type = .tokError
        · rw [chainLoop_error herror htype] at hchain
          cases hchain
          rw [chainLoop_error herror htype]
          exact ⟨_, _, rfl, .inl ⟨rfl, hlead⟩⟩
        · obtain ⟨b', t', ht', htog⟩ := chainLoop_follow h hfind herror hfinal a₀' hchain
          exact ⟨b', t', ht', htog.of_leads (hlead htype)⟩
      · rw [chainLoop_error herror hstop.1]
        exact ⟨_, _, rfl, .inr hstop⟩
  stops := by
    intro s₀ s r hchain hs
    unfold chain at hchain ⊢
    split at hchain
    · cases hchain
    · rename_i a₀ s₁ hP'
      obtain ⟨a', t', hP, htype, hnext⟩ := h.stops hP' hs
      rw [hP]
      dsimp only
      rw [chainLoop_error herror htype]
      exact ⟨_, _, rfl, htype, hnext⟩

end Chains

/-! ## The functions of the parser -/

/-- The loops over signs, side by side. -/
def SignsTogether (C : Doubles D U) (find : Find V U) (s : State D V U) (r r' : Int × State D V U) : Prop :=
  r = r' ∧ Leads C find s r.2 ∨ Stopped C find s r.2

theorem SignsTogether.round (hfind : Narrower C find find') {loop loop' : Int → State D V U → Int × State D V U}
    (ih : ∀ n v, SignsTogether C find v (loop n v) (loop' n v))
    (herror : ∀ n v, v.type = .tokError → loop n v = (n, v)) (hs : s.type.final = false) (n : Int) :
    SignsTogether C find s (loop n (s.advance C find)) (loop' n (s.advance C find')) := by
  have hlead := leads_advance C find hs
  rcases hfind.advance s with heq | hstop
  · rw [← heq]
    rcases ih n (s.advance C find) with ⟨hsame, hrest⟩ | hstop
    · exact .inl ⟨hsame, hlead.trans hrest⟩
    · exact .inr (hstop.of_leads hlead)
  · rw [herror _ _ hstop]
    exact .inr ((stopped_refl hstop).of_leads hlead)

theorem signLoop_error (hs : s.type = .tokError) (fuel : Nat) (sign : Int) :
    signLoop C find fuel sign s = (sign, s) := by
  cases fuel <;> simp [signLoop, hs]

theorem signLoop_follow (hfind : Narrower C find find') (fuel : Nat) (sign : Int) (s : State D V U) :
    SignsTogether C find s (signLoop C find fuel sign s) (signLoop C find' fuel sign s) := by
  induction fuel generalizing sign s with
  | zero => exact .inl ⟨rfl, .refl s⟩
  | succ fuel ih =>
    have hround := SignsTogether.round (s := s) hfind ih fun n v hv => signLoop_error hv fuel n
    unfold signLoop
    split
    · rename_i htype
      exact hround (by rw [htype]; rfl) _
    · rename_i htype
      exact hround (by rw [htype]; rfl) _
    · exact .inl ⟨rfl, .refl s⟩

theorem logicalLoop_error (hs : s.type = .tokError) (fuel : Nat) (logical : Int) :
    logicalLoop C find fuel logical s = (logical, s) := by
  cases fuel <;> simp [logicalLoop, hs]

theorem logicalLoop_follow (hfind : Narrower C find find') (fuel : Nat) (logical : Int) (s : State D V U) :
    SignsTogether C find s (logicalLoop C find fuel logical s) (logicalLoop C find' fuel logical s) := by
  induction fuel generalizing logical s with
  | zero => exact .inl ⟨rfl, .refl s⟩
  | succ fuel ih =>
    have hround := SignsTogether.round (s := s) hfind ih fun n v hv => logicalLoop_error hv fuel n
    unfold logicalLoop
    split
    · rename_i htype
      exact hround (by rw [htype]; rfl) _
    · rename_i htype
      exact hround (by rw [htype]; rfl) _
    · rename_i htype
      exact hround (by rw [htype]; rfl) _
    · exact .inl ⟨rfl, .refl s⟩

section Functions

variable {base base' : Parser D V U}

/-- The loops of `power`. -/
def readSigns (C : Doubles D U) (find : Find V U) (s : State D V U) : Int × Int × State D V U :=
  let (sign, s) := signLoop C find ((reader C find).left s) 1 s
  let (logical, s) := logicalLoop C find ((reader C find).left s) 0 s
  (sign, logical, s)

theorem power_readSigns (s : State D V U) : power C find base s =
    (base (readSigns C find s).2.2).map fun r =>
      ((unaryFun (readSigns C find s).1 (readSigns C find s).2.1).elim r.1 (unaryNode · r.1),
        { r.2 with appliedUnary := (readSigns C find s).1 ≠ 1 ∨ (readSigns C find s).2.1 ≠ 0 }) := by
  unfold power readSigns
  dsimp only
  cases base _ <;> rfl

theorem readSigns_error (hs : s.type = .tokError) : readSigns C find s = (1, 0, s) := by
  unfold readSigns
  rw [signLoop_error hs]
  dsimp only
  rw [logicalLoop_error hs]

theorem readSigns_follow (hfind : Narrower C find find') (s : State D V U) :
    readSigns C find s = readSigns C find' s ∧ Leads C find s (readSigns C find s).2.2 ∨
      Stopped C find s (readSigns C find s).2.2 := by
  have hfirst := signLoop_follow hfind ((reader C find).left s) 1 s
  have hsecond := logicalLoop_follow hfind ((reader C find).left (signLoop C find ((reader C find).left s) 1 s).2) 0
    (signLoop C find ((reader C find).left s) 1 s).2
  unfold readSigns
  dsimp only
  rcases hfirst with ⟨hsame, hlead⟩ | hstop
  · rcases hsecond with ⟨hsame', hlead'⟩ | hstop'
    · refine .inl ⟨?_, hlead.trans hlead'⟩
      rw [hsame', hsame]
      rfl
    · exact .inr (hstop'.of_leads hlead)
  · rw [logicalLoop_error hstop.1]
    exact .inr hstop

theorem follow_power (h : Follow C find base base') (hfind : Narrower C find find') :
    Follow C find (power C find base) (power C find' base') where
  goes := by
    intro s t a hpower
    rw [power_readSigns] at hpower ⊢
    obtain ⟨⟨b, s₁⟩, hb, heq⟩ := Option.map_eq_some_iff.mp hpower
    cases heq
    rcases readSigns_follow hfind s with ⟨hsame, hlead⟩ | hstop
    · rw [← hsame] at hb ⊢
      obtain ⟨b', s₁', hb', htogether⟩ := h.goes hb
      rw [hb']
      refine ⟨_, _, rfl, ?_⟩
      rcases htogether with ⟨rfl, hrest⟩ | hstop
      · exact .inl ⟨rfl, fun htype next hnext => hlead next (hrest htype next hnext)⟩
      · exact .inr (hstop.of_leads hlead)
    · obtain ⟨b', s₁', hb', htype, hnext⟩ := h.stops hb hstop.1
      rw [hb']
      refine ⟨_, _, rfl, .inr ⟨htype, ?_⟩⟩
      change s.FirstError C find s₁'.next
      rw [hnext]
      exact hstop.2
  stops := by
    intro s₀ s r hpower hs
    rw [power_readSigns] at hpower ⊢
    obtain ⟨r', hb, -⟩ := Option.map_eq_some_iff.mp hpower
    rw [readSigns_error hs]
    obtain ⟨b', s₁', hb', htype, hnext⟩ := h.stops hb hs
    rw [hb']
    exact ⟨_, _, rfl, htype, hnext⟩

theorem factorLoop_error {power : Parser D V U} (hs : s.type = .tokError) (fuel : Nat) (slot : List Nat)
    (ret : Expr D V U) : factorLoop C find power fuel slot ret s = some (ret, s) :=
  factorLoop_other (by rw [hs]; simp) fuel slot ret

theorem factorLoop_follow (h : Follow C find base base') (hfind : Narrower C find find') {fuel : Nat}
    {slot : List Nat} {ret e : Expr D V U} (slot' : List Nat) (ret' : Expr D V U)
    (hloop : factorLoop C find' base' fuel slot ret s = some (e, t)) :
    ∃ e' t', factorLoop C find base fuel slot' ret' s = some (e', t') ∧ Together C find s t t' := by
  induction fuel generalizing s slot slot' ret ret' with
  | zero =>
    cases hloop
    exact ⟨ret', t, rfl, .inl ⟨rfl, fun _ => .refl t⟩⟩
  | succ fuel ih =>
    unfold factorLoop at hloop
    split at hloop
    · rename_i htype
      split at hloop
      · cases hloop
      · rename_i p s₁ hp
        obtain ⟨p', s₁', hp', htogether⟩ := h.after hfind (by rw [htype]; rfl) hp
        unfold factorLoop
        rw [htype]
        dsimp only at hloop ⊢
        rw [hp']
        dsimp only
        rcases htogether with ⟨rfl, hlead⟩ | hstop
        · by_cases hs₁ : s₁'.type = .tokError
          · rw [factorLoop_error hs₁] at hloop
            cases hloop
            exact ⟨_, _, factorLoop_error hs₁ _ _ _, .inl ⟨rfl, hlead⟩⟩
          · obtain ⟨e', t', he', htog⟩ := ih _ _ hloop
            exact ⟨e', t', he', htog.of_leads (hlead hs₁)⟩
        · exact ⟨_, _, factorLoop_error hstop.1 _ _ _, .inr hstop⟩
    · rename_i hother
      cases hloop
      exact ⟨ret', t, factorLoop_other hother _ _ _, .inl ⟨rfl, fun _ => .refl t⟩⟩

theorem follow_factor (h : Follow C find base base') (hfind : Narrower C find find') :
    Follow C find (factor C find base) (factor C find' base') where
  goes := by
    intro s t a hfactor
    unfold factor at hfactor ⊢
    split at hfactor
    · cases hfactor
    · rename_i ret s₁ hret
      obtain ⟨ret', s₁', hret', htogether⟩ := h.goes hret
      rw [hret']
      dsimp only at hfactor ⊢
      split at hfactor
      · cases hfactor
      · rename_i e s₂ hloop
        cases hfactor
        rcases htogether with ⟨rfl, hlead⟩ | hstop
        · by_cases hs₁ : s₁'.type = .tokError
          · rw [factorLoop_error hs₁] at hloop ⊢
            cases hloop
            exact ⟨_, _, rfl, .inl ⟨rfl, hlead⟩⟩
          · obtain ⟨e', t', he', htog⟩ := factorLoop_follow h hfind [] (hoist s₁'.appliedUnary ret').2 hloop
            change factorLoop C find base ((reader C find).left s₁') _ _ _ = _ at he'
            rw [he']
            exact ⟨_, _, rfl, htog.of_leads (hlead hs₁)⟩
        · rw [factorLoop_error hstop.1]
          exact ⟨_, _, rfl, .inr hstop⟩
  stops := by
    intro s₀ s r hfactor hs
    unfold factor at hfactor ⊢
    split at hfactor
    · cases hfactor
    · rename_i ret s₁ hret
      obtain ⟨ret', t', hret', htype, hnext⟩ := h.stops hret hs
      rw [hret']
      dsimp only
      rw [factorLoop_error htype]
      exact ⟨_, _, rfl, htype, hnext⟩

theorem advance_together (hfind : Narrower C find find') (hs : s.type.final = false) :
    Together C find s (s.advance C find') (s.advance C find) := by
  have hlead := leads_advance C find hs
  rcases hfind.advance s with heq | herror
  · exact .inl ⟨heq, fun _ => heq ▸ hlead⟩
  · exact .inr ((stopped_refl herror).of_leads hlead)

theorem closing_stopped (h : Stopped C find s t) : Stopped C find s (closing C find t) := by
  unfold closing
  rw [h.1]
  exact ⟨rfl, h.2⟩

theorem closing_together {t' : State D V U} (hfind : Narrower C find find') (h : Together C find s t t') :
    Together C find s (closing C find' t) (closing C find t') := by
  rcases h with ⟨rfl, hlead⟩ | hstop
  · unfold closing
    split
    · rename_i hclose
      exact (advance_together hfind (by rw [hclose]; rfl)).of_leads (hlead (by rw [hclose]; simp))
    · exact .inl ⟨rfl, fun h => absurd rfl h⟩
  · exact .inr (closing_stopped hstop)

theorem parametersLoop_follow (h : Follow C find base base') (hfind : Narrower C find find') {n : Nat}
    {l : List (Expr D V U)} (hs : s.type.final = false) (hloop : parametersLoop C find' base' n s = some (l, t)) :
    ∃ l' t', parametersLoop C find base n s = some (l', t') ∧
      (l'.length = l.length ∧ Together C find s t t' ∨ Stopped C find s t') := by
  induction n generalizing s l t with
  | zero =>
    cases hloop
    exact ⟨[], s, rfl, .inl ⟨rfl, .inl ⟨rfl, fun _ => .refl s⟩⟩⟩
  | succ n ih =>
    unfold parametersLoop at hloop
    split at hloop
    · cases hloop
    · rename_i p s₁ hp
      obtain ⟨p', s₁', hp', htogether⟩ := h.after hfind hs hp
      unfold parametersLoop
      rw [hp']
      dsimp only
      rcases htogether with ⟨rfl, hlead⟩ | hstop
      · split at hloop
        · rename_i hsep
          obtain ⟨⟨ps, s₂⟩, hps, heq⟩ := Option.map_eq_some_iff.mp hloop
          cases heq
          obtain ⟨l', t', hl', hrest⟩ := ih (by rw [hsep]; rfl) hps
          have hlead := hlead (by rw [hsep]; simp)
          rw [hl']
          refine ⟨_, _, rfl, ?_⟩
          rcases hrest with ⟨hlength, htog⟩ | hstop
          · exact .inl ⟨by simp [hlength], htog.of_leads hlead⟩
          · exact .inr (hstop.of_leads hlead)
        · cases hloop
          exact ⟨_, _, rfl, .inl ⟨rfl, .inl ⟨rfl, hlead⟩⟩⟩
      · rw [hstop.1]
        exact ⟨_, _, rfl, .inr hstop⟩

theorem follow_baseImpl {power power' expr expr' list list' : Parser D V U} (hpower : Follow C find power power')
    (hexpr : Follow C find expr expr') (hlist : Follow C find list list') (hfind : Narrower C find find') :
    Follow C find (baseImpl C find power expr list) (baseImpl C find' power' expr' list') where
  goes := by
    intro s t a hbase
    unfold baseImpl at hbase ⊢
    split at hbase
    · rename_i value htype
      cases hbase
      exact ⟨_, _, rfl, advance_together hfind (by rw [htype]; rfl)⟩
    · rename_i bound htype
      cases hbase
      exact ⟨_, _, rfl, advance_together hfind (by rw [htype]; rfl)⟩
    · rename_i f htype
      have hs : s.type.final = false := by rw [htype]; rfl
      have hlead := leads_advance C find hs
      dsimp only at hbase ⊢
      split at hbase
      · -- a constant
        rcases hfind.advance s with heq | herror
        · rw [← heq] at hbase
          split at hbase
          · rename_i hopen
            cases hbase
            have htogether := (advance_together hfind (by rw [hopen]; rfl)).of_leads hlead
            exact ⟨_, _, rfl, closing_together hfind htogether⟩
          · cases hbase
            exact ⟨_, _, rfl, .inl ⟨rfl, fun _ => hlead⟩⟩
        · rw [herror]
          exact ⟨_, _, rfl, .inr ((stopped_refl herror).of_leads hlead)⟩
      · -- a function of one parameter
        obtain ⟨⟨p, s₁⟩, hp, heq⟩ := Option.map_eq_some_iff.mp hbase
        cases heq
        obtain ⟨p', s₁', hp', htogether⟩ := hpower.after hfind hs hp
        rw [hp']
        exact ⟨_, _, rfl, htogether⟩
      · rcases hfind.advance s with heq | herror
        · rw [← heq] at hbase
          split at hbase
          · rename_i hopen
            split at hbase
            · cases hbase
            · rename_i l s₁ hl
              cases hbase
              obtain ⟨l', s₁', hl', htogether⟩ := parametersLoop_follow hexpr hfind (by rw [hopen]; rfl) hl
              rw [hl']
              refine ⟨_, _, rfl, ?_⟩
              have hfail : ∀ {v : State D V U}, Stopped C find s v → Stopped C find s v.fail := fun hv => ⟨rfl, hv.2⟩
              rcases htogether with ⟨hlength, htogether⟩ | hstop
              · rw [hlength]
                have htogether := htogether.of_leads hlead
                split
                · exact closing_together hfind htogether
                · rcases htogether with ⟨rfl, -⟩ | hstop
                  · exact .inl ⟨rfl, fun h => absurd rfl h⟩
                  · exact .inr (hfail hstop)
              · have hstop := hstop.of_leads hlead
                refine .inr ?_
                split
                · exact closing_stopped hstop
                · exact hfail hstop
          · cases hbase
            exact ⟨_, _, rfl, .inl ⟨rfl, fun h => absurd rfl h⟩⟩
        · rw [herror]
          exact ⟨_, _, rfl, .inr ⟨rfl, ((stopped_refl herror).of_leads hlead).2⟩⟩
    · rename_i hopen
      obtain ⟨⟨p, s₁⟩, hp, heq⟩ := Option.map_eq_some_iff.mp hbase
      cases heq
      obtain ⟨p', s₁', hp', htogether⟩ := hlist.after hfind (by rw [hopen]; rfl) hp
      rw [hp']
      exact ⟨_, _, rfl, closing_together hfind htogether⟩
    · cases hbase
      exact ⟨_, _, rfl, .inl ⟨rfl, fun h => absurd rfl h⟩⟩
  stops := by
    intro s₀ s r _ hs
    unfold baseImpl
    rw [hs]
    exact ⟨_, _, rfl, rfl, rfl⟩

section Levels

variable [DecidableEq U] (h : Follow C find base base') (hfind : Narrower C find find')

include h hfind

theorem follow_expr : Follow C find (expr C find base) (expr C find' base') := by
  have hlevel : ∀ (functions : List (Fun U)) {P P' : Parser D V U}, Follow C find P P' →
      Follow C find (chain (reader C find) (infixOp functions) opNode P)
        (chain (reader C find') (infixOp functions) opNode P') := by
    intro functions P P' hP
    refine follow_chain hP hfind rfl fun t f ht => ?_
    rw [(infixOp_eq_some.mp ht).1]
    rfl
  exact hlevel _ (hlevel _ (hlevel _ (hlevel _ (hlevel _ (hlevel _ (follow_factor (follow_power h hfind) hfind))))))

theorem follow_list : Follow C find (list C find base) (list C find' base') := by
  refine follow_chain (follow_expr h hfind) hfind rfl fun t f ht => ?_
  rw [(sepOp_eq_some.mp ht).1]
  rfl

end Levels

theorem follow_base [DecidableEq U] (hfind : Narrower C find find') (n : Nat) :
    Follow C find (Tinyexpr.base C find n) (Tinyexpr.base C find' n) := by
  induction n with
  | zero =>
    constructor
    · intro s t a h
      cases h
    · intro s₀ s r h
      cases h
  | succ n ih => exact follow_baseImpl (follow_power ih hfind) (follow_expr ih hfind) (follow_list ih hfind) hfind

end Functions

/-! ## `te_compile` -/

/-- Where a text is an expression for the one search and not for the other one, the error is behind the first name
that is not found. -/
theorem compileWith_narrower [DecidableEq U] (hfind : Narrower C find find') {text : List Char} {e : Expr D V U}
    (hok : compileWith C find' text = .ok e) (hno : ∀ e, compileWith C find text ≠ .ok e) :
    ∃ next, FirstError C find text next ∧ compileWith C find text = .error (errorPos text next) := by
  obtain ⟨a, s, hlist, hend, -⟩ := compileWith_eq_ok.mp hok
  -- the state in front of the text
  let s₀ : State D V U := { next := text, type := .tokSep }
  have hfollow := follow_list (follow_base hfind teMaxDepth) hfind
  obtain ⟨a', s', hlist', htogether⟩ := hfollow.after (s := s₀) hfind rfl hlist
  rcases htogether with ⟨rfl, -⟩ | hstop
  · exact absurd (compileWith_end hlist' hend) (hno _)
  · refine ⟨s'.next, ?_, compileWith_error hlist' (by rw [hstop.1]; simp)⟩
    rcases hstop.2 with ⟨htype, -⟩ | ⟨-, hnext⟩
    · cases htype
    · exact hnext

end Uvrgw.Tinyexpr
