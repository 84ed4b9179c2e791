import Uvrgw.Can.Code
import Uvrgw.Lib.Strtol

/-!
# CAN identifiers (`parse_can_id` of `uvrgw_conf.c`)

What is written in the configuration, and what is read.
-/

namespace Uvrgw.Can

open Uvrgw.Lib

/-! ## Parsing -/

def anaId (node chan : Nat) : Nat :=
  0x200 ||| (node &&& 0x3f) ||| ((chan &&& 0x0c) <<< 5) ||| ((chan &&& 0x10) <<< 2)

def digId (node : Nat) : Nat := 0x180 ||| (node &&& 0x3f)

/-- Behind `ANA:`. -/
def parseAna (value : List Char) : Option Int :=
  match strtol decimal value with
  | (node, ':' :: p) =>
    match strtol decimal p with
    | (chan, []) =>
      let node := toInt node
      let chan := toInt chan
      if node < 0 ∨ 0x3f < node ∨ chan < 0 ∨ 0x1f < chan ∨ chan.toNat &&& 3 ≠ 0 then none
      else some (anaId node.toNat chan.toNat)
    | _ => none
  | _ => none

/-- Behind `DIG:`. -/
def parseDig (value : List Char) : Option Int :=
  match strtol decimal value with
  | (node, []) =>
    let node := toInt node
    if node < 0 ∨ 0x3f < node then none else some (digId node.toNat)
  | _ => none

def parseNumber (r : Radix) (value : List Char) : Option Int :=
  match strtol r value with
  | (n, []) => some (toInt n)
  | _ => none

def parseCanId (value : List Char) : Option Int :=
  match ['A', 'N', 'A', ':'].isPrefixOf? value, ['D', 'I', 'G', ':'].isPrefixOf? value,
    ['0', 'x'].isPrefixOf? value with
  | some value, _, _ => parseAna value
  | none, some value, _ => parseDig value
  | none, none, some value => parseNumber hexadecimal value
  | none, none, none => parseNumber decimal value

/-- `parse_can_id`, then the check of `frame_configure`. -/
def canId (value : List Char) : Option Int := do
  let id ← parseCanId value
  (frameConfigure { canId := id, dir := some .input }).map (·.canId)

/-! ## Written identifiers -/

/-- The four ways to write an identifier, with numbers as `R` reads them. -/
inductive Written (R : Radix → List Char → Int → Prop) : List Char → Int → Prop
  | ana {a b : List Char} {node chan : Int} (ha : R decimal a node) (hb : R decimal b chan)
      (hnode : 0 ≤ node ∧ node ≤ 63) (hchan : 0 ≤ chan ∧ chan ≤ 28) (hfirst : chan % 4 = 0) :
      Written R ("ANA:".toList ++ (a ++ ':' :: b)) (0x200 + node + 0x80 * (chan / 4 % 4) + 0x40 * (chan / 16))
  | dig {a : List Char} {node : Int} (ha : R decimal a node) (hnode : 0 ≤ node ∧ node ≤ 63) :
      Written R ("DIG:".toList ++ a) (0x180 + node)
  | hex {a : List Char} {id : Int} (ha : R hexadecimal a id) (hid : 0 ≤ id ∧ id ≤ 0x7ff) :
      Written R ("0x".toList ++ a) id
  | dec {a : List Char} {id : Int} (ha : R decimal a id) (hid : 0 ≤ id ∧ id ≤ 0x7ff) : Written R a id

/-- The documented identifiers: their numbers are plain digits. -/
def Documented (s : List Char) (id : Int) : Prop := Written Radix.Digits s id

/-- Written like an identifier, but with a number that is spelled loosely. -/
inductive Sloppy : List Char → Prop
  | ana {a b : List Char} {node chan : Int} (ha : decimal.Spelled a node) (hb : decimal.Spelled b chan)
      (hnode : 0 ≤ node ∧ node ≤ 63) (hchan : 0 ≤ chan ∧ chan ≤ 28) (hfirst : chan % 4 = 0)
      (hloose : decimal.Loose a node ∨ decimal.Loose b chan) : Sloppy ("ANA:".toList ++ (a ++ ':' :: b))
  | dig {a : List Char} {node : Int} (ha : decimal.Loose a node) (hnode : 0 ≤ node ∧ node ≤ 63) :
      Sloppy ("DIG:".toList ++ a)
  | hex {a : List Char} {id : Int} (ha : hexadecimal.Loose a id) (hid : 0 ≤ id ∧ id ≤ 0x7ff) :
      Sloppy ("0x".toList ++ a)
  | dec {a : List Char} {id : Int} (ha : decimal.Loose a id) (hid : 0 ≤ id ∧ id ≤ 0x7ff) : Sloppy a

/-! ## What is accepted -/

theorem anaId_eq {node chan : Int} (hnode : 0 ≤ node ∧ node ≤ 63) (hchan : 0 ≤ chan ∧ chan ≤ 28)
    (hfirst : chan % 4 = 0) :
    (anaId node.toNat chan.toNat : Int) = 0x200 + node + 0x80 * (chan / 4 % 4) + 0x40 * (chan / 16) := by
  have hall : ∀ n < 64, ∀ k < 8,
      anaId n (4 * k) = 0x200 + n + 0x80 * (k % 4) + 0x40 * (k / 4) := by decide +kernel
  have h := hall node.toNat (by omega) (chan.toNat / 4) (by omega)
  rw [show 4 * (chan.toNat / 4) = chan.toNat by omega] at h
  rw [h]
  omega

theorem digId_eq {node : Int} (hnode : 0 ≤ node ∧ node ≤ 63) : (digId node.toNat : Int) = 0x180 + node := by
  have hall : ∀ n < 64, digId n = 0x180 + n := by decide +kernel
  rw [hall node.toNat (by omega)]
  omega

theorem canId_eq {s : List Char} {id : Int} :
    canId s = some id ↔ parseCanId s = some id ∧ 0 ≤ id ∧ id ≤ 0x7ff := by
  have hframe : ∀ id, (frameConfigure { canId := id, dir := some .input }).map (·.canId) =
      if 0 ≤ id ∧ id ≤ 0x7ff then some id else none := by
    intro id
    unfold frameConfigure
    by_cases h : 0 ≤ id ∧ id ≤ 0x7ff
    · simp [h, valuesConfigure, guard]
    · simp [h, guard]
  unfold canId
  rw [Option.bind_eq_bind, Option.bind_eq_some_iff]
  simp only [hframe, Option.ite_none_right_eq_some, Option.some.injEq]
  constructor
  · rintro ⟨n, hn, hrange, rfl⟩
    exact ⟨hn, hrange⟩
  · rintro ⟨hn, hrange⟩
    exact ⟨id, hn, hrange, rfl⟩

theorem parseAna_eq {value : List Char} {id : Int} :
    parseAna value = some id ↔ ∃ a b node chan, value = a ++ ':' :: b ∧ decimal.Reads a node ∧ decimal.Reads b chan ∧
      (0 ≤ node ∧ node ≤ 63) ∧ (0 ≤ chan ∧ chan ≤ 28) ∧ chan % 4 = 0 ∧
      id = 0x200 + node + 0x80 * (chan / 4 % 4) + 0x40 * (chan / 16) := by
  have hmask : ∀ chan : Int, ¬ (chan < 0 ∨ 0x1f < chan ∨ chan.toNat &&& 3 ≠ 0) ↔
      (0 ≤ chan ∧ chan ≤ 28) ∧ chan % 4 = 0 := by
    intro chan
    rw [show (3 : Nat) = 2 ^ 2 - 1 from rfl, Nat.and_two_pow_sub_one_eq_mod]
    omega
  unfold parseAna
  constructor
  · intro h
    split at h
    · rename_i v p hv
      split at h
      · rename_i w hw
        dsimp only at h
        split at h
        · cases h
        · rename_i hok
          obtain ⟨a, rfl, ha⟩ := strtol_colon.mp hv
          have hnode : 0 ≤ toInt v ∧ toInt v ≤ 63 := by omega
          obtain ⟨hchan, hfirst⟩ := (hmask (toInt w)).mp (fun hbad => hok (.inr (.inr hbad)))
          exact ⟨a, p, _, _, rfl, ⟨v, ha, rfl⟩, ⟨w, hw, rfl⟩, hnode, hchan, hfirst,
            (Option.some.inj h).symm.trans (anaId_eq hnode hchan hfirst)⟩
      · cases h
    · cases h
  · rintro ⟨a, b, node, chan, rfl, ⟨v, ha, rfl⟩, ⟨w, hb, rfl⟩, hnode, hchan, hfirst, rfl⟩
    have hok := (hmask (toInt w)).mpr ⟨hchan, hfirst⟩
    simp only [strtol_colon.mpr ⟨a, rfl, ha⟩, hb]
    rw [if_neg (by omega), anaId_eq hnode hchan hfirst]

theorem parseDig_eq {value : List Char} {id : Int} :
    parseDig value = some id ↔ ∃ node, decimal.Reads value node ∧ (0 ≤ node ∧ node ≤ 63) ∧ id = 0x180 + node := by
  unfold parseDig
  constructor
  · intro h
    split at h
    · rename_i v hv
      dsimp only at h
      split at h
      · cases h
      · have hnode : 0 ≤ toInt v ∧ toInt v ≤ 63 := by omega
        exact ⟨_, ⟨v, hv, rfl⟩, hnode, (Option.some.inj h).symm.trans (digId_eq hnode)⟩
    · cases h
  · rintro ⟨node, ⟨v, hv, rfl⟩, hnode, rfl⟩
    rw [hv]
    dsimp only
    rw [if_neg (by omega), digId_eq hnode]

theorem parseNumber_eq {r : Radix} {value : List Char} {id : Int} :
    parseNumber r value = some id ↔ r.Reads value id := by
  unfold parseNumber Radix.Reads
  constructor
  · intro h
    split at h
    · rename_i v hv
      exact ⟨v, hv, Option.some.inj h⟩
    · cases h
  · rintro ⟨v, hv, rfl⟩
    rw [hv]

theorem reads_no_prefix {s : List Char} {n : Int} (h : decimal.Reads s n) :
    ['A', 'N', 'A', ':'].isPrefixOf? s = none ∧ ['D', 'I', 'G', ':'].isPrefixOf? s = none ∧
      ['0', 'x'].isPrefixOf? s = none := by
  obtain ⟨v, hv, -⟩ := h
  refine ⟨?_, ?_, ?_⟩ <;> rw [Option.eq_none_iff_forall_ne_some] <;> intro t ht <;>
    obtain rfl := List.isPrefixOf?_eq_some_iff_append_eq.mp ht
  · rw [show strtol decimal (['A', 'N', 'A', ':'] ++ t) = (0, ['A', 'N', 'A', ':'] ++ t) from rfl] at hv
    cases hv
  · rw [show strtol decimal (['D', 'I', 'G', ':'] ++ t) = (0, ['D', 'I', 'G', ':'] ++ t) from rfl] at hv
    cases hv
  · rw [show strtol decimal (['0', 'x'] ++ t) = (0, 'x' :: t) from rfl] at hv
    cases hv

theorem canId_written {s : List Char} {id : Int} : canId s = some id ↔ Written Radix.Reads s id := by
  rw [canId_eq]
  constructor
  · rintro ⟨h, hid⟩
    unfold parseCanId at h
    cases hana : ['A', 'N', 'A', ':'].isPrefixOf? s with
    | some value =>
      rw [hana] at h
      obtain ⟨a, b, node, chan, rfl, ha, hb, hnode, hchan, hfirst, rfl⟩ := parseAna_eq.mp h
      rw [← List.isPrefixOf?_eq_some_iff_append_eq.mp hana]
      exact .ana ha hb hnode hchan hfirst
    | none =>
    cases hdig : ['D', 'I', 'G', ':'].isPrefixOf? s with
    | some value =>
      rw [hana, hdig] at h
      obtain ⟨node, ha, hnode, rfl⟩ := parseDig_eq.mp h
      rw [← List.isPrefixOf?_eq_some_iff_append_eq.mp hdig]
      exact .dig ha hnode
    | none =>
    cases hhex : ['0', 'x'].isPrefixOf? s with
    | some value =>
      rw [hana, hdig, hhex] at h
      rw [← List.isPrefixOf?_eq_some_iff_append_eq.mp hhex]
      exact .hex (parseNumber_eq.mp h) hid
    | none =>
      rw [hana, hdig, hhex] at h
      exact .dec (parseNumber_eq.mp h) hid
  · intro h
    cases h with
    | @ana a b node chan ha hb hnode hchan hfirst =>
      refine ⟨?_, by omega⟩
      rw [show parseCanId ("ANA:".toList ++ (a ++ ':' :: b)) = parseAna (a ++ ':' :: b) from rfl]
      exact parseAna_eq.mpr ⟨a, b, node, chan, rfl, ha, hb, hnode, hchan, hfirst, rfl⟩
    | @dig a node ha hnode =>
      refine ⟨?_, by omega⟩
      rw [show parseCanId ("DIG:".toList ++ a) = parseDig a from rfl]
      exact parseDig_eq.mpr ⟨node, ha, hnode, rfl⟩
    | @hex a id ha hid =>
      refine ⟨?_, hid⟩
      rw [show parseCanId ("0x".toList ++ a) = parseNumber hexadecimal a from rfl]
      exact parseNumber_eq.mpr ha
    | dec ha hid =>
      refine ⟨?_, hid⟩
      obtain ⟨h1, h2, h3⟩ := reads_no_prefix ha
      unfold parseCanId
      rw [h1, h2, h3]
      exact parseNumber_eq.mpr ha

/-! ## When this is what is documented -/

theorem Documented.accepted {s : List Char} {id : Int} (h : Documented s id) : canId s = some id := by
  have hdec : decimal.Standard := .inl rfl
  rw [canId_written]
  cases h with
  | ana ha hb hnode hchan hfirst =>
    exact .ana (ha.reads hdec (by omega)) (hb.reads hdec (by omega)) hnode hchan hfirst
  | dig ha hnode => exact .dig (ha.reads hdec (by omega)) hnode
  | hex ha hid => exact .hex (ha.reads (.inr rfl) (by omega)) hid
  | dec ha hid => exact .dec (ha.reads hdec (by omega)) hid

theorem documented_ana {t : List Char} {id : Int} (h : Documented ("ANA:".toList ++ t) id) :
    ∃ a b node chan, t = a ++ ':' :: b ∧ decimal.Digits a node ∧ decimal.Digits b chan ∧ node ≤ 63 ∧ chan ≤ 28 := by
  unfold Documented at h
  generalize hs : "ANA:".toList ++ t = s at h
  cases h with
  | @ana a b node chan ha hb hnode hchan =>
    exact ⟨a, b, node, chan, List.append_cancel_left hs, ha, hb, hnode.2, hchan.2⟩
  | dig => simp at hs
  | hex => simp at hs
  | dec ha => exact absurd (ha.1.2 'A' (by rw [← hs]; simp)) (by decide)

theorem documented_dig {t : List Char} {id : Int} (h : Documented ("DIG:".toList ++ t) id) :
    ∃ node, decimal.Digits t node ∧ node ≤ 63 := by
  unfold Documented at h
  generalize hs : "DIG:".toList ++ t = s at h
  cases h with
  | ana => simp at hs
  | @dig a node ha hnode => exact ⟨node, List.append_cancel_left hs ▸ ha, hnode.2⟩
  | hex => simp at hs
  | dec ha => exact absurd (ha.1.2 'D' (by rw [← hs]; simp)) (by decide)

theorem documented_hex {t : List Char} {id : Int} (h : Documented ("0x".toList ++ t) id) :
    hexadecimal.Digits t id ∧ id ≤ 0x7ff := by
  unfold Documented at h
  generalize hs : "0x".toList ++ t = s at h
  cases h with
  | ana => simp at hs
  | dig => simp at hs
  | hex ha hid => exact ⟨List.append_cancel_left hs ▸ ha, hid.2⟩
  | dec ha => exact absurd (ha.1.2 'x' (by rw [← hs]; simp)) (by decide)

theorem documented_dec {t : List Char} {n id : Int} (ht : decimal.Reads t n) (h : Documented t id) :
    decimal.Digits t id ∧ id ≤ 0x7ff := by
  obtain ⟨hana, hdig, hhex⟩ := reads_no_prefix ht
  unfold Documented at h
  cases h with
  | ana => cases hana
  | dig => cases hdig
  | hex => cases hhex
  | dec ha hid => exact ⟨ha, hid.2⟩

theorem Sloppy.wrong {s : List Char} (h : Sloppy s) : ∃ id, canId s = some id ∧ ¬ Documented s id := by
  have hdec : decimal.Standard := .inl rfl
  simp only [canId_written]
  cases h with
  | @ana a b node chan ha hb hnode hchan hfirst hloose =>
    have hareads := (reads_spelled hdec hnode.1).mpr ha
    refine ⟨_, .ana hareads ((reads_spelled hdec hchan.1).mpr hb) hnode hchan hfirst, fun hdoc => ?_⟩
    obtain ⟨a', b', node', chan', heq, ha', hb', hnode', hchan'⟩ := documented_ana hdoc
    -- `strtol` stops at the same colon
    obtain ⟨v, hv, -⟩ := hareads
    obtain ⟨v', hv', -⟩ := ha'.reads hdec (by omega)
    have hstop := (strtol_colon.mpr ⟨a, rfl, hv⟩).symm.trans (heq ▸ strtol_colon.mpr ⟨a', rfl, hv'⟩)
    obtain rfl : b = b' := (List.cons.inj (Prod.mk.inj hstop).2).2
    obtain rfl : a = a' := List.append_cancel_right heq
    rcases hloose with hl | hl
    · exact hl.not_digits hdec (by omega) ha'
    · exact hl.not_digits hdec (by omega) hb'
  | @dig a node ha hnode =>
    refine ⟨_, .dig (ha.reads hdec) hnode, fun hdoc => ?_⟩
    obtain ⟨node', ha', hnode'⟩ := documented_dig hdoc
    exact ha.not_digits hdec (by omega) ha'
  | hex ha hid =>
    refine ⟨_, .hex (ha.reads (.inr rfl)) hid, fun hdoc => ?_⟩
    obtain ⟨hd, hle⟩ := documented_hex hdoc
    exact ha.not_digits (.inr rfl) (by omega) hd
  | dec ha hid =>
    refine ⟨_, .dec (ha.reads hdec) hid, fun hdoc => ?_⟩
    obtain ⟨hd, hle⟩ := documented_dec (ha.reads hdec) hdoc
    exact ha.not_digits hdec (by omega) hd

theorem wrong_sloppy {s : List Char} {id : Int} (h : canId s = some id) (hdoc : ¬ Documented s id) : Sloppy s := by
  have hdec : decimal.Standard := .inl rfl
  rw [canId_written] at h
  cases h with
  | @ana a b node chan ha hb hnode hchan hfirst =>
    have ha := (reads_spelled hdec hnode.1).mp ha
    have hb := (reads_spelled hdec hchan.1).mp hb
    refine .ana ha hb hnode hchan hfirst ?_
    rcases ha with ⟨ha, -⟩ | ha
    · rcases hb with ⟨hb, -⟩ | hb
      · exact absurd (.ana ha hb hnode hchan hfirst) hdoc
      · exact .inr hb
    · exact .inl ha
  | dig ha hnode =>
    rcases (reads_spelled hdec hnode.1).mp ha with ⟨ha, -⟩ | ha
    · exact absurd (.dig ha hnode) hdoc
    · exact .dig ha hnode
  | hex ha hid =>
    rcases (reads_spelled (.inr rfl) hid.1).mp ha with ⟨ha, -⟩ | ha
    · exact absurd (.hex ha hid) hdoc
    · exact .hex ha hid
  | dec ha hid =>
    rcases (reads_spelled hdec hid.1).mp ha with ⟨ha, -⟩ | ha
    · exact absurd (.dec ha hid) hdoc
    · exact .dec ha hid

/-- **Identifiers are parsed exactly**, unless a number is spelled loosely; and different nodes and
channels have different identifiers. -/
theorem canId_exact (s : List Char) :
    ((∀ id, canId s = some id ↔ Documented s id) ↔ ¬ Sloppy s) ∧
      (∀ node chan node' chan' : Nat, node ≤ 63 → chan ≤ 28 → chan % 4 = 0 → node' ≤ 63 → chan' ≤ 28 →
        chan' % 4 = 0 → anaId node chan = anaId node' chan' → node = node' ∧ chan = chan') ∧
      (∀ node node' : Nat, node ≤ 63 → node' ≤ 63 → digId node = digId node' → node = node') ∧
      ∀ node node' chan : Nat, node ≤ 63 → node' ≤ 63 → chan ≤ 28 → chan % 4 = 0 →
        digId node ≠ anaId node' chan := by
  have hana : ∀ node chan : Nat, node ≤ 63 → chan ≤ 28 → chan % 4 = 0 →
      anaId node chan = 0x200 + node + 0x80 * (chan / 4 % 4) + 0x40 * (chan / 16) := by
    intro node chan h1 h2 h3
    have := @anaId_eq node chan (by omega) (by omega) (by omega)
    simp only [Int.toNat_natCast] at this
    omega
  have hdig : ∀ node : Nat, node ≤ 63 → digId node = 0x180 + node := by
    intro node h
    have := @digId_eq node (by omega)
    simp only [Int.toNat_natCast] at this
    omega
  refine ⟨⟨fun hexact hs => ?_, fun hs id => ⟨fun h => ?_, Documented.accepted⟩⟩, ?_, ?_, ?_⟩
  · obtain ⟨id, h, hdoc⟩ := hs.wrong
    exact hdoc ((hexact id).mp h)
  · by_contra hdoc
    exact hs (wrong_sloppy h hdoc)
  · intro node chan node' chan' h1 h2 h3 h4 h5 h6 heq
    rw [hana node chan h1 h2 h3, hana node' chan' h4 h5 h6] at heq
    have hnode : node = node' := by omega
    have hhalf : chan / 16 = chan' / 16 := by omega
    omega
  · intro node node' h1 h2 heq
    rw [hdig node h1, hdig node' h2] at heq
    omega
  · intro node node' chan h1 h2 h3 h4
    rw [hdig node h1, hana node' chan h2 h3 h4]
    omega

theorem canId_truncated :
    canId "4294967297".toList = some 1 ∧ ∀ id, ¬ Documented "4294967297".toList id := by
  have hreads : decimal.Reads "4294967297".toList 1 := ⟨4294967297, by decide +kernel, by decide⟩
  refine ⟨canId_written.mpr (.dec hreads (by decide)), fun id hdoc => ?_⟩
  obtain ⟨⟨-, rfl⟩, hid⟩ := documented_dec hreads hdoc
  revert hid
  decide +kernel

end Uvrgw.Can
