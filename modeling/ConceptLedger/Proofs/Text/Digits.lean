import ConceptLedger.Text.Digits
import Mathlib.Data.List.Induction
import Mathlib.Data.List.Lex
import Mathlib.Tactic.Ring

/-!
Digits of fixed width. They can be read back, and texts of one width are ordered as the numbers
that they spell.
-/

namespace ConceptLedger.Digits

theorem length_fixed (base width n : Nat) : (fixed base width n).length = width := by
  induction width generalizing n with
  | zero => rfl
  | succ width ih => simp [fixed, ih]

theorem lt_of_mem_fixed {base width n d : Nat} (positive : 0 < base)
    (member : d ∈ fixed base width n) : d < base := by
  induction width generalizing n with
  | zero => cases member
  | succ width ih =>
    rcases List.mem_append.mp member with front | last
    · exact ih front
    · rw [List.mem_singleton.mp last]
      exact Nat.mod_lt n positive

theorem value_concat (base d : Nat) (digits : List Nat) :
    value base (digits ++ [d]) = value base digits * base + d := by
  simp [value]

/-- Reading back the last digits of a number. -/
theorem value_fixed (base width n : Nat) : value base (fixed base width n) = n % base ^ width := by
  induction width generalizing n with
  | zero => simp [fixed, value, Nat.mod_one]
  | succ width ih =>
    rw [fixed, value_concat, ih, pow_succ', Nat.mod_mul]
    ring

theorem value_lt {base : Nat} {ds : List Nat} (digits : ∀ d ∈ ds, d < base) :
    value base ds < base ^ ds.length := by
  induction ds using List.reverseRecOn with
  | nil => exact Nat.one_pos
  | append_singleton ds d ih =>
    have front := ih fun d' member => digits d' (List.mem_append_left _ member)
    have last := digits d (List.mem_append_right _ List.mem_cons_self)
    rw [value_concat, List.length_append, List.length_singleton, pow_succ]
    calc value base ds * base + d < value base ds * base + base := by omega
      _ = (value base ds + 1) * base := by ring
      _ ≤ base ^ ds.length * base := Nat.mul_le_mul_right base front

/-- Digits can be told from the number that they spell. -/
theorem fixed_value {base : Nat} {ds : List Nat} (digits : ∀ d ∈ ds, d < base) :
    fixed base ds.length (value base ds) = ds := by
  induction ds using List.reverseRecOn with
  | nil => rfl
  | append_singleton ds d ih =>
    have front := ih fun d' member => digits d' (List.mem_append_left _ member)
    have last := digits d (List.mem_append_right _ List.mem_cons_self)
    have positive : 0 < base := Nat.zero_lt_of_lt last
    have upper : (value base ds * base + d) / base = value base ds := by
      rw [Nat.mul_comm, Nat.mul_add_div positive, Nat.div_eq_of_lt last, Nat.add_zero]
    have lower : (value base ds * base + d) % base = d := by
      rw [Nat.mul_comm, Nat.mul_add_mod, Nat.mod_eq_of_lt last]
    rw [value_concat, List.length_append, List.length_singleton, fixed, upper, lower, front]

/-- Where two texts of one length are different, what follows does not matter. -/
theorem lex_append {α : Type} {r : α → α → Prop} {a b : List α} (length : a.length = b.length)
    (before : List.Lex r a b) (c d : List α) : List.Lex r (a ++ c) (b ++ d) := by
  induction before with
  | nil => cases length
  | cons _ ih => exact .cons (ih (Nat.succ.inj length))
  | rel first => exact .rel first

theorem lex_fixed {base width n m : Nat} (less : n < m)
    (bound : m < base ^ width) :
    List.Lex (· < ·) (fixed base width n) (fixed base width m) := by
  induction width generalizing n m with
  | zero =>
    rw [pow_zero] at bound
    omega
  | succ width ih =>
    have above : m / base < base ^ width := by
      rw [pow_succ] at bound
      exact Nat.div_lt_of_lt_mul (by rwa [Nat.mul_comm])
    rcases Nat.lt_or_eq_of_le (Nat.div_le_div_right (c := base) (Nat.le_of_lt less)) with
      front | same
    · exact lex_append (by simp [length_fixed]) (ih front above) _ _
    · rw [fixed, fixed, same]
      refine List.Lex.append_left _ (.rel ?_) _
      have whole := Nat.div_add_mod n base
      have whole' := Nat.div_add_mod m base
      rw [same] at whole
      omega

/-- The digits below sixteen, with the order and the values of their characters. -/
theorem hexDigit_lt {a b : Nat} (less : a < b) (bound : b < 16) : hexDigit a < hexDigit b := by
  have all : ∀ b : Fin 16, ∀ a : Fin 16, a < b → hexDigit a < hexDigit b := by decide
  exact all ⟨b, bound⟩ ⟨a, Nat.lt_trans less bound⟩ less

theorem hexValue?_hexDigit {d : Nat} (bound : d < 16) : hexValue? (hexDigit d) = some d := by
  have all : ∀ d : Fin 16, hexValue? (hexDigit d) = some d.val := by decide
  exact all ⟨d, bound⟩

theorem toNat_lt_of_hexValue? {c : Char} {d : Nat} (read : hexValue? c = some d) :
    c.toNat < 128 := by
  unfold hexValue? at read
  split at read
  · rename_i within
    have high : c.toNat ≤ 57 := within.2
    omega
  split at read
  · rename_i within
    have high : c.toNat ≤ 102 := within.2
    omega
  split at read
  · rename_i within
    have high : c.toNat ≤ 70 := within.2
    omega
  · cases read

/-- What is read as a digit is one in lower case. -/
theorem toLower_of_hexValue? {c : Char} {d : Nat} (read : hexValue? c = some d) :
    d < 16 ∧ c.toLower = hexDigit d := by
  have all : ∀ n : Fin 128, ∀ d ∈ hexValue? (Char.ofNat n),
      d < 16 ∧ (Char.ofNat n).toLower = hexDigit d := by decide +kernel
  have here := all ⟨c.toNat, toNat_lt_of_hexValue? read⟩ d
  rw [Char.ofNat_toNat] at here
  exact here read

/-- The case of a digit does not matter. -/
theorem hexValue?_toLower (c : Char) : hexValue? c.toLower = hexValue? c := by
  have all : ∀ n : Fin 128, hexValue? (Char.ofNat n).toLower = hexValue? (Char.ofNat n) := by
    decide +kernel
  by_cases upper : c.val ≥ 'A'.val ∧ c.val ≤ 'Z'.val
  · have high : c.toNat ≤ 90 := upper.2
    have here := all ⟨c.toNat, by omega⟩
    rwa [Char.ofNat_toNat] at here
  · have same : c.toLower = c := dif_neg upper
    rw [same]

theorem mapM_toLower (cs : List Char) : (cs.map Char.toLower).mapM hexValue? = cs.mapM hexValue? := by
  induction cs with
  | nil => rfl
  | cons c rest ih => rw [List.map_cons, List.mapM_cons, List.mapM_cons, hexValue?_toLower, ih]

/-- Digits that are read are in lower case those that spell their values. -/
theorem toLower_of_mapM {cs : List Char} {ds : List Nat} (read : cs.mapM hexValue? = some ds) :
    (∀ d ∈ ds, d < 16) ∧ cs.map Char.toLower = ds.map hexDigit := by
  induction cs generalizing ds with
  | nil =>
    cases read
    exact ⟨List.forall_mem_nil _, rfl⟩
  | cons c rest ih =>
    rw [List.mapM_cons] at read
    obtain ⟨d, first, read⟩ := Option.bind_eq_some_iff.mp read
    obtain ⟨ds, later, read⟩ := Option.bind_eq_some_iff.mp read
    cases read
    obtain ⟨bound, same⟩ := toLower_of_hexValue? first
    obtain ⟨bounds, others⟩ := ih later
    refine ⟨List.forall_mem_cons.mpr ⟨bound, bounds⟩, ?_⟩
    rw [List.map_cons, List.map_cons, same, others]

/-- Digits of which each is read back are read back one after the other. -/
theorem mapM_hexDigit {read : Char → Option Nat} {ds : List Nat}
    (each : ∀ d ∈ ds, read (hexDigit d) = some d) : (ds.map hexDigit).mapM read = some ds := by
  induction ds with
  | nil => rfl
  | cons d rest ih =>
    rw [List.map_cons, List.mapM_cons, each d List.mem_cons_self,
      ih fun d' later => each d' (List.mem_cons_of_mem _ later)]
    rfl

theorem length_hexFixed (width n : Nat) : (hexFixed width n).length = width := by
  simp [hexFixed, length_fixed]

theorem lex_hexFixed {width n m : Nat} (less : n < m) (bound : m < 16 ^ width) :
    List.Lex (· < ·) (hexFixed width n) (hexFixed width m) := by
  have below : ∀ d ∈ fixed 16 width m, d < 16 := fun d => lt_of_mem_fixed (by decide)
  have digits := lex_fixed less bound
  unfold hexFixed
  generalize fixed 16 width n = a at digits
  generalize fixed 16 width m = b at digits below
  induction digits with
  | nil => exact .nil
  | cons _ ih => exact .cons (ih fun d later => below d (List.mem_cons_of_mem _ later))
  | rel first => exact .rel (hexDigit_lt first (below _ List.mem_cons_self))

/-- Reading back hexadecimal digits. -/
theorem read_hexFixed (width n : Nat) :
    ((hexFixed width n).mapM hexValue?).map (value 16) = some (n % 16 ^ width) := by
  rw [hexFixed, mapM_hexDigit fun d member => hexValue?_hexDigit (lt_of_mem_fixed (by decide) member),
    Option.map_some, value_fixed]

theorem decimalValue?_hexDigit {d : Nat} (bound : d < 10) : decimalValue? (hexDigit d) = some d := by
  have all : ∀ d : Fin 10, decimalValue? (hexDigit d) = some d.val := by decide
  exact all ⟨d, bound⟩

/-- A text of decimal digits that spells a number. -/
def Spells (cs : List Char) (n : Nat) : Prop :=
  ∃ ds, cs.mapM decimalValue? = some ds ∧ value 10 ds = n

theorem spells_decimalFixed (width n : Nat) : Spells (decimalFixed width n) (n % 10 ^ width) :=
  ⟨fixed 10 width n,
    mapM_hexDigit fun _ member => decimalValue?_hexDigit (lt_of_mem_fixed (by decide) member),
    value_fixed 10 width n⟩

theorem length_decimalFixed (width n : Nat) : (decimalFixed width n).length = width := by
  simp [decimalFixed, length_fixed]

theorem Spells.concat {cs : List Char} {n d : Nat} (spells : Spells cs n) (bound : d < 10) :
    Spells (cs ++ [hexDigit d]) (n * 10 + d) := by
  obtain ⟨ds, read, rfl⟩ := spells
  refine ⟨ds ++ [d], ?_, value_concat 10 d ds⟩
  rw [List.mapM_append, read, List.mapM_cons, decimalValue?_hexDigit bound]
  rfl

/-- Zeros in front change nothing. -/
theorem Spells.pad {cs : List Char} {n : Nat} (spells : Spells cs n) (zeros : Nat) :
    Spells (List.replicate zeros '0' ++ cs) n := by
  induction zeros with
  | zero => exact spells
  | succ zeros ih =>
    obtain ⟨ds, read, rfl⟩ := ih
    refine ⟨0 :: ds, ?_, by simp [value]⟩
    rw [List.replicate_succ, List.cons_append, List.mapM_cons, read]
    rfl

theorem decimal_eq (n : Nat) : decimal n = Nat.toDigits 10 n := by
  simp [decimal, toString, Nat.repr]

theorem spells_decimal (n : Nat) : Spells (decimal n) n := by
  have digit : ∀ {d : Nat}, d < 10 → d.digitChar = hexDigit d := by
    intro d bound
    have all : ∀ d : Fin 10, d.val.digitChar = hexDigit d := by decide
    exact all ⟨d, bound⟩
  rw [decimal_eq]
  induction n using Nat.strong_induction_on with
  | _ n ih =>
    rw [Nat.toDigits_eq_if (by decide)]
    split
    · rename_i small
      rw [digit small]
      exact ⟨[n], by rw [List.mapM_cons, decimalValue?_hexDigit small]; rfl, by simp [value]⟩
    · have last : n % 10 < 10 := Nat.mod_lt n (by decide)
      have spelled := (ih (n / 10) (by omega)).concat last
      rw [Nat.div_add_mod'] at spelled
      rwa [digit last]

end ConceptLedger.Digits
