import OneTape.Error

/-!
# Coverage

A machine covers its alphabet if every state with rules has one for every tuple of symbols that its
heads can read. Strict settings ask for this, so that the machine never stops for want of a rule.
-/

namespace OneTape.Coverage

/-- Counts a tuple of digits up by one, the last digit first; `none` after the last tuple. -/
def next? (base : Nat) : List Nat → Option (List Nat)
  | [] => none
  | d :: ds =>
    match next? base ds with
    | some ds' => some (d :: ds')
    | none => if d + 1 < base then some ((d + 1) :: ds.map fun _ => 0) else none

/-- The number of tuples that are counted after a tuple of digits. -/
def remaining (base : Nat) : List Nat → Nat
  | [] => 0
  | d :: ds => (base - (d + 1)) * Nat.pow base ds.length + remaining base ds

theorem length_of_next? {base : Nat} {ds ds' : List Nat} (h : next? base ds = some ds') :
    ds'.length = ds.length := by
  induction ds generalizing ds' with
  | nil => cases h
  | cons d ds ih =>
    rw [next?] at h
    split at h
    · next es hes =>
      cases h
      simp [ih hes]
    · split at h <;> cases h
      simp

/-- Fewer tuples come after zeros than there are in all. -/
theorem remaining_zeros_lt {base : Nat} (hbase : 0 < base) (ds : List Nat) :
    remaining base (ds.map fun _ => 0) < Nat.pow base ds.length := by
  induction ds with
  | nil => exact Nat.one_pos
  | cons d ds ih =>
    obtain ⟨b, rfl⟩ : ∃ b, base = b + 1 := ⟨base - 1, by omega⟩
    have hsucc : Nat.pow (b + 1) (ds.length + 1) =
        b * Nat.pow (b + 1) ds.length + Nat.pow (b + 1) ds.length := by
      rw [Nat.mul_comm b]
      exact Nat.mul_succ _ b
    simp only [List.map_cons, remaining, List.length_map, List.length_cons, hsucc]
    have hdigit : b + 1 - (0 + 1) = b := by omega
    rw [hdigit]
    omega

/-- Counting up leaves fewer tuples. -/
theorem remaining_lt_of_next? {base : Nat} {ds ds' : List Nat} (h : next? base ds = some ds') :
    remaining base ds' < remaining base ds := by
  induction ds generalizing ds' with
  | nil => cases h
  | cons d ds ih =>
    rw [next?] at h
    split at h
    · next es hes =>
      cases h
      simp only [remaining, length_of_next? hes]
      exact Nat.add_lt_add_left (ih hes) _
    · split at h
      · next hd =>
        cases h
        have hzeros := remaining_zeros_lt (Nat.zero_lt_of_lt hd) ds
        have hdigit : base - (d + 1) = base - (d + 1 + 1) + 1 := by omega
        simp only [remaining, List.length_map]
        rw [hdigit, Nat.succ_mul]
        omega
      · cases h

/-- The tuple of symbols that digits stand for. -/
def spell (symbols : List Symbol) (digits : List Nat) : List Symbol :=
  digits.map fun d => symbols[d]?.getD Symbol.blank

/-- Looks for the first tuple, from given digits on, that is not covered. -/
def search (symbols : List Symbol) (covered : List (List Symbol)) (digits : List Nat) :
    Option (List Symbol) :=
  if covered.contains (spell symbols digits) then
    match _h : next? symbols.length digits with
    | some digits => search symbols covered digits
    | none => none
  else
    some (spell symbols digits)
termination_by remaining symbols.length digits
decreasing_by exact remaining_lt_of_next? (by assumption)

/-- The first tuple of symbols, in the order of the symbols, that is not covered. -/
def firstUncovered (symbols : List Symbol) (tapes : Nat) (covered : List (List Symbol)) :
    Option (List Symbol) :=
  search symbols covered (List.replicate tapes 0)

/-- The number of tuples of symbols, if it fits in a 64-bit word. -/
def tupleCount? (symbols tapes : Nat) : Option Nat :=
  let count := Nat.pow symbols tapes
  if tapes < 4294967296 ∧ count < 18446744073709551616 then some count else none

/-- The first tuple that no rule of a list reads. Counting settles the case in which there is none
without a search. -/
def gap? (symbols : List Symbol) (tapes : Nat) (rules : List Rule) : Option (List Symbol) :=
  let covered := (rules.map Rule.read).eraseDups
  if (tupleCount? symbols.length tapes).any (· ≤ covered.length) then none
  else firstUncovered symbols tapes covered

/-- Accepts a machine in which every state with rules has one for every tuple of symbols; otherwise
reports the first state that has none, with the first such tuple. -/
def check (m : Machine) (symbols : List Symbol) (tapes : Nat) : Except Error Unit :=
  let gap := m.domainStates.findSome? fun s =>
    (gap? symbols tapes (m.rulesFrom s)).map fun tuple => (s, tuple)
  match gap with
  | some (state, tuple) => .error (.uncovered state tuple)
  | none => .ok ()

end OneTape.Coverage
