import OneTape.Proofs.Alphabet
import OneTape.Proofs.Analysis
import OneTape.Proofs.Odometer

/-!
# Gaps in the rules of a state

A gap is a tuple of symbols that no rule of a state reads. Whether there is one is found by counting
and, if that does not settle it, by a search. Counting is sound since rules read symbols of the
alphabet only: as many different tuples as there are in all are all tuples.

Results:
* `gap?_congr`: lists with the same rules have the same first gap.
* `gap?_eq_firstUncovered`: counting changes nothing.
* `check_eq_ok_iff`, `check_eq_error_iff`: what the check of a machine says about its states.
* `check_exact`: a machine passes if it has no gap; otherwise the first gap of the first state that
  has one is reported.
-/

namespace OneTape.Coverage

variable {symbols : List Symbol} {k : Nat} {rules : List Rule} {t : List Symbol}

/-! ## Sets of rules -/

theorem firstUncovered_congr {covered covered' : List (List Symbol)}
    (h : ∀ t, t ∈ covered ↔ t ∈ covered') :
    firstUncovered symbols k covered = firstUncovered symbols k covered' := by
  have hcontains : ∀ t, covered.contains t = covered'.contains t := by
    intro t
    rw [Bool.eq_iff_iff, List.contains_iff_mem, List.contains_iff_mem, h]
  simp only [firstUncovered, search_eq_find?, hcontains]

/-- **The first gap depends on the set of rules only.** -/
theorem gap?_congr {rules rules' : List Rule} (h : ∀ r, r ∈ rules ↔ r ∈ rules') :
    gap? symbols k rules = gap? symbols k rules' := by
  have hmem : ∀ t, t ∈ (rules.map Rule.read).eraseDups ↔ t ∈ (rules'.map Rule.read).eraseDups := by
    intro t
    simp only [List.mem_eraseDups, List.mem_map, h]
  have hlength : (rules.map Rule.read).eraseDups.length = (rules'.map Rule.read).eraseDups.length :=
    ((List.perm_ext_iff_of_nodup (nodup_eraseDups _) (nodup_eraseDups _)).mpr hmem).length_eq
  simp only [gap?, hlength, firstUncovered_congr hmem]

/-! ## The first gap -/

/-- A tuple of `k` symbols that no rule of a list reads. -/
structure IsGap (symbols : List Symbol) (k : Nat) (rules : List Rule) (t : List Symbol) : Prop where
  length : t.length = k
  mem_symbols : ∀ c ∈ t, c ∈ symbols
  unread : ∀ r ∈ rules, r.read ≠ t

/-- One symbol stands in front of another in a list. -/
def Precedes (symbols : List Symbol) (c d : Symbol) : Prop := symbols.idxOf c < symbols.idxOf d

/-- The gap that comes first if tuples are compared place by place, symbols by their place in the
list. -/
structure IsFirstGap (symbols : List Symbol) (k : Nat) (rules : List Rule) (t : List Symbol) : Prop
    extends IsGap symbols k rules t where
  least : ∀ t', IsGap symbols k rules t' → t' = t ∨ List.Lex (Precedes symbols) t t'

instance : Std.Asymm (Precedes symbols) := ⟨fun _ _ h h' => Nat.lt_asymm h h'⟩

theorem IsFirstGap.unique {t' : List Symbol} (h : IsFirstGap symbols k rules t)
    (h' : IsFirstGap symbols k rules t') : t = t' := by
  rcases h.least t' h'.toIsGap with heq | hlt
  · exact heq.symm
  rcases h'.least t h.toIsGap with heq | hgt
  · exact heq
  · exact absurd hgt (Std.Asymm.asymm _ _ hlt)

theorem pairwise_precedes (h : symbols.Nodup) : symbols.Pairwise (Precedes symbols) := by
  refine List.pairwise_iff_getElem.mpr fun i j hi hj hij => ?_
  show symbols.idxOf symbols[i] < symbols.idxOf symbols[j]
  rwa [h.idxOf_getElem i hi, h.idxOf_getElem j hj]

theorem isGap_iff : IsGap symbols k rules t ↔
    t ∈ tuples symbols k ∧ t ∉ (rules.map Rule.read).eraseDups := by
  rw [mem_tuples, List.mem_eraseDups, List.mem_map]
  constructor
  · intro h
    exact ⟨⟨h.length, h.mem_symbols⟩, fun ⟨r, hr, hread⟩ => h.unread r hr hread⟩
  · rintro ⟨⟨hlength, hsymbols⟩, hunread⟩
    exact ⟨hlength, hsymbols, fun r hr hread => hunread ⟨r, hr, hread⟩⟩

theorem forall_not_isGap_iff : (∀ t, ¬ IsGap symbols k rules t) ↔
    ∀ t : List Symbol, t.length = k → (∀ c ∈ t, c ∈ symbols) → ∃ r ∈ rules, r.read = t := by
  constructor
  · intro hno t hlength hsymbols
    by_contra hunread
    exact hno t ⟨hlength, hsymbols, fun r hr hread => hunread ⟨r, hr, hread⟩⟩
  · intro hall t hgap
    obtain ⟨r, hr, hread⟩ := hall t hgap.length hgap.mem_symbols
    exact hgap.unread r hr hread

theorem tupleCount?_eq_some {symbols tapes n : Nat} (h : tupleCount? symbols tapes = some n) :
    n = Nat.pow symbols tapes := by
  unfold tupleCount? at h
  dsimp only at h
  split_ifs at h
  exact (Option.some.inj h).symm

/-- A list of symbols without repetition that rules read tuples of `k` symbols over. -/
structure Suits (symbols : List Symbol) (k : Nat) (rules : List Rule) : Prop where
  ne_nil : symbols ≠ []
  nodup : symbols.Nodup
  read : ∀ r ∈ rules, r.read ∈ tuples symbols k

namespace Suits

variable (h : Suits symbols k rules)
include h

theorem not_isGap_of_firstUncovered
    (hnone : firstUncovered symbols k (rules.map Rule.read).eraseDups = none) :
    ¬ IsGap symbols k rules t := by
  rw [firstUncovered_eq_find? h.ne_nil, List.find?_eq_none] at hnone
  intro hgap
  obtain ⟨htuple, hunread⟩ := isGap_iff.mp hgap
  exact hnone t htuple (by simpa using hunread)

/-- What the search finds is the first gap. -/
theorem isFirstGap_of_firstUncovered
    (hsome : firstUncovered symbols k (rules.map Rule.read).eraseDups = some t) :
    IsFirstGap symbols k rules t := by
  rw [firstUncovered_eq_find? h.ne_nil, List.find?_eq_some_iff_append] at hsome
  obtain ⟨hunread, front, back, htuples, hfront⟩ := hsome
  have hmem : t ∈ tuples symbols k := by simp [htuples]
  have hgap : IsGap symbols k rules t := isGap_iff.mpr ⟨hmem, by simpa using hunread⟩
  refine ⟨hgap, fun t' hgap' => ?_⟩
  obtain ⟨hmem', hunread'⟩ := isGap_iff.mp hgap'
  rw [htuples, List.mem_append, List.mem_cons] at hmem'
  rcases hmem' with hin | rfl | hin
  · exact absurd (hfront t' hin) (by simpa using hunread')
  · exact .inl rfl
  · -- behind the first gap the order of enumeration is the order of tuples
    have hpairwise := pairwise_tuples (pairwise_precedes h.nodup) k
    rw [htuples] at hpairwise
    exact .inr ((List.pairwise_cons.mp (List.pairwise_append.mp hpairwise).2.1).1 t' hin)

/-- As many different tuples as there are in all are all tuples. -/
theorem no_gap_of_count
    (hcount : Nat.pow symbols.length k ≤ (rules.map Rule.read).eraseDups.length) :
    ¬ IsGap symbols k rules t := by
  have hsub : (rules.map Rule.read).eraseDups ⊆ tuples symbols k := by
    intro t ht
    obtain ⟨r, hr, rfl⟩ := List.mem_map.mp (List.mem_eraseDups.mp ht)
    exact h.read r hr
  have hperm : (rules.map Rule.read).eraseDups.Perm (tuples symbols k) := by
    refine (List.subperm_of_subset (nodup_eraseDups _) hsub).perm_of_length_le ?_
    rwa [length_tuples]
  intro hgap
  obtain ⟨htuple, hunread⟩ := isGap_iff.mp hgap
  exact hunread (hperm.mem_iff.mpr htuple)

/-- **Counting changes nothing.** If it settles the case, the search would find no gap either. -/
theorem gap?_eq_firstUncovered :
    gap? symbols k rules = firstUncovered symbols k (rules.map Rule.read).eraseDups := by
  unfold gap?
  dsimp only
  split_ifs with hcount
  · obtain ⟨n, hn, hle⟩ := (Option.any_eq_true _ _).mp hcount
    have hle : Nat.pow symbols.length k ≤ (rules.map Rule.read).eraseDups.length := by
      simpa [tupleCount?_eq_some hn] using hle
    cases hfirst : firstUncovered symbols k (rules.map Rule.read).eraseDups with
    | none => rfl
    | some t => exact absurd (h.isFirstGap_of_firstUncovered hfirst).toIsGap (h.no_gap_of_count hle)
  · rfl

theorem gap?_eq_none_iff : gap? symbols k rules = none ↔ ∀ t, ¬ IsGap symbols k rules t := by
  rw [h.gap?_eq_firstUncovered]
  constructor
  · intro hnone t
    exact h.not_isGap_of_firstUncovered hnone
  · intro hno
    cases hfirst : firstUncovered symbols k (rules.map Rule.read).eraseDups with
    | none => rfl
    | some t => exact absurd (h.isFirstGap_of_firstUncovered hfirst).toIsGap (hno t)

theorem gap?_eq_some_iff : gap? symbols k rules = some t ↔ IsFirstGap symbols k rules t := by
  rw [h.gap?_eq_firstUncovered]
  constructor
  · exact h.isFirstGap_of_firstUncovered
  · intro hgap
    cases hfirst : firstUncovered symbols k (rules.map Rule.read).eraseDups with
    | none => exact absurd hgap.toIsGap (h.not_isGap_of_firstUncovered hfirst)
    | some t' => rw [(h.isFirstGap_of_firstUncovered hfirst).unique hgap]

end Suits

/-! ## The states of a machine -/

variable {m : Machine}

/-- The first state that has a gap, with its first gap. -/
def firstGap? (m : Machine) (symbols : List Symbol) (k : Nat) : Option (String × List Symbol) :=
  m.domainStates.findSome? fun s => (gap? symbols k (m.rulesFrom s)).map fun tuple => (s, tuple)

theorem firstGap?_eq_none_iff :
    firstGap? m symbols k = none ↔ ∀ s ∈ m.domainStates, gap? symbols k (m.rulesFrom s) = none := by
  simp only [firstGap?, List.findSome?_eq_none_iff, Option.map_eq_none_iff]

theorem firstGap?_eq_some_iff {s : String} : firstGap? m symbols k = some (s, t) ↔
    ∃ front back, m.domainStates = front ++ s :: back ∧
      (∀ s' ∈ front, gap? symbols k (m.rulesFrom s') = none) ∧
        gap? symbols k (m.rulesFrom s) = some t := by
  simp only [firstGap?, List.findSome?_eq_some_iff, Option.map_eq_some_iff, Option.map_eq_none_iff]
  constructor
  · rintro ⟨front, s', back, hstates, ⟨t', hgap, heq⟩, hfront⟩
    cases heq
    exact ⟨front, back, hstates, hfront, hgap⟩
  · rintro ⟨front, back, hstates, hfront, hgap⟩
    exact ⟨front, s, back, hstates, ⟨t, hgap, rfl⟩, hfront⟩

theorem check_eq : check m symbols k =
    match firstGap? m symbols k with
    | some (state, tuple) => .error (.uncovered state tuple)
    | none => .ok () := rfl

/-- A machine passes if none of its states has a gap. -/
theorem check_eq_ok_iff : check m symbols k = .ok () ↔
    ∀ s ∈ m.domainStates, gap? symbols k (m.rulesFrom s) = none := by
  rw [← firstGap?_eq_none_iff, check_eq]
  cases firstGap? m symbols k <;> simp

/-- A machine that does not pass is refused for the first of its states that has a gap. -/
theorem check_eq_error_iff {error : Error} : check m symbols k = .error error ↔
    ∃ front s back t, m.domainStates = front ++ s :: back ∧
      (∀ s' ∈ front, gap? symbols k (m.rulesFrom s') = none) ∧
        gap? symbols k (m.rulesFrom s) = some t ∧ error = .uncovered s t := by
  have hcheck : check m symbols k = .error error ↔
      ∃ s t, firstGap? m symbols k = some (s, t) ∧ error = .uncovered s t := by
    rw [check_eq]
    cases firstGap? m symbols k with
    | none => simp
    | some found =>
      obtain ⟨s, t⟩ := found
      simp [eq_comm]
  rw [hcheck]
  constructor
  · rintro ⟨s, t, hfirst, herror⟩
    obtain ⟨front, back, hstates, hfront, hgap⟩ := firstGap?_eq_some_iff.mp hfirst
    exact ⟨front, s, back, t, hstates, hfront, hgap, herror⟩
  · rintro ⟨front, s, back, t, hstates, hfront, hgap, herror⟩
    exact ⟨s, t, firstGap?_eq_some_iff.mpr ⟨front, back, hstates, hfront, hgap⟩, herror⟩

theorem suits_of_wellFormed (hm : m.WellFormed k) (iteration : Nat) (s : String) :
    Suits (Alphabet.ofMachine (m.escape iteration) iteration).symbols k
      ((m.escape iteration).rulesFrom s) where
  ne_nil := List.ne_nil_of_mem (Alphabet.mem_symbols_ofMachine.mpr (.inl rfl))
  nodup := Alphabet.nodup_symbols_ofMachine _ _
  read r hr := by
    have hr : r ∈ (m.escape iteration).rules := (List.mem_filter.mp hr).1
    refine mem_tuples.mpr ⟨(Machine.lengths_escape hm.lengths r hr).1, fun c hc => ?_⟩
    exact Alphabet.mem_symbols_ofMachine.mpr
      (.inr (List.mem_flatMap.mpr ⟨r, hr, List.mem_append_left _ hc⟩))

/-- **The check reports exactly the first gap.** A machine of `k` tapes that was accepted passes if
and only if each of its states with rules has a rule for every tuple of `k` symbols of the escaped
alphabet. Otherwise the error names the first state that has a gap, in the order in which states
appear, with the gap that comes first in the order of the alphabet. Counting the tuples that are
read decides nothing that the search would not. The search counts through all tuples in order, each
once, and counting ends, whatever the number of symbols and wherever it starts. -/
theorem check_exact (m : Machine) (k iteration : Nat) (hm : m.analyze = .ok ())
    (hk : m.tapeCount? = some k) :
    let e := m.escape iteration
    let symbols := (Alphabet.ofMachine e iteration).symbols
    (check e symbols k = .ok () ↔
      ∀ s ∈ e.domainStates, ∀ t : List Symbol, t.length = k → (∀ c ∈ t, c ∈ symbols) →
        ∃ r ∈ e.rulesFrom s, r.read = t) ∧
    (∀ error, check e symbols k = .error error ↔
      ∃ front s back t, e.domainStates = front ++ s :: back ∧
        (∀ s' ∈ front, ∀ t', ¬ IsGap symbols k (e.rulesFrom s') t') ∧
          IsFirstGap symbols k (e.rulesFrom s) t ∧ error = .uncovered s t) ∧
    (∀ s, gap? symbols k (e.rulesFrom s) =
      firstUncovered symbols k ((e.rulesFrom s).map Rule.read).eraseDups) ∧
    (∀ n, (fun digits : Option (List Nat) => digits.bind (next? symbols.length))^[n]
      (some (List.replicate k 0)) = (tuples (List.range symbols.length) k)[n]?) ∧
    ∀ base digits n, (fun digits : Option (List Nat) => digits.bind (next? base))^[n]
      (some digits) = none ↔ remaining base digits < n := by
  obtain ⟨k', hm⟩ := Machine.analyze_eq_ok_iff.mp hm
  obtain rfl : k' = k := Option.some.inj (hm.tapeCount.symm.trans hk)
  have hsuits := suits_of_wellFormed hm iteration
  dsimp only
  refine ⟨?_, fun error => ?_, fun s => (hsuits s).gap?_eq_firstUncovered, fun n => ?_,
    iterate_next?_eq_none_iff⟩
  · rw [check_eq_ok_iff]
    refine forall_congr' fun s => forall_congr' fun hs => ?_
    rw [(hsuits s).gap?_eq_none_iff, forall_not_isGap_iff]
  · simp only [check_eq_error_iff, (hsuits _).gap?_eq_none_iff, (hsuits _).gap?_eq_some_iff]
  · rw [iterate_next?, onwards_zeros (List.length_pos_iff.mpr (hsuits m.initial).ne_nil)]

/-- A machine with two states over the blank and the boundary, the second of which reads the blank
only. -/
def lopsided : Machine :=
  ⟨"Lopsided", "p", [], [⟨"p", [Symbol.blank], "p", [Symbol.boundary], [.right]⟩,
    ⟨"p", [Symbol.boundary], "q", [Symbol.blank], [.stay]⟩,
    ⟨"q", [Symbol.blank], "q", [Symbol.blank], [.stay]⟩]⟩

theorem wellFormed_lopsided : lopsided.WellFormed 1 where
  tapeCount := rfl
  tapes_pos := Nat.one_pos
  lengths := by decide
  names := by decide
  words := by decide
  start := by decide
  functional := by
    unfold Functional
    decide

/-- The gap of the second state is reported: no rule of it reads the escaped boundary. -/
theorem check_lopsided : lopsided.analyze = .ok () ∧
    check (lopsided.escape 1) (Alphabet.ofMachine (lopsided.escape 1) 1).symbols 1 =
      .error (.uncovered "q" [⟨"\\#\\"⟩]) := by
  have hm : lopsided.analyze = .ok () := Machine.analyze_eq_ok_iff.mpr ⟨1, wellFormed_lopsided⟩
  obtain ⟨-, herror, -⟩ := check_exact lopsided 1 1 hm rfl
  have hcells : (lopsided.escape 1).symbols =
      [Symbol.blank, ⟨"\\#\\"⟩, ⟨"\\#\\"⟩, Symbol.blank, Symbol.blank, Symbol.blank] := by decide
  have hsymbols : ∀ c, c ∈ (Alphabet.ofMachine (lopsided.escape 1) 1).symbols ↔
      c = Symbol.blank ∨ c = ⟨"\\#\\"⟩ := by
    intro c
    rw [Alphabet.mem_symbols_ofMachine, hcells]
    simp only [List.mem_cons, List.not_mem_nil]
    tauto
  -- a gap of one place is one of the two symbols
  have hplace : ∀ {s t}, IsGap (Alphabet.ofMachine (lopsided.escape 1) 1).symbols 1
      ((lopsided.escape 1).rulesFrom s) t → t = [Symbol.blank] ∨ t = [⟨"\\#\\"⟩] := by
    intro s t hgap
    obtain ⟨c, rfl⟩ := List.length_eq_one_iff.mp hgap.length
    simpa using (hsymbols c).mp (hgap.mem_symbols c List.mem_cons_self)
  refine ⟨hm, (herror _).mpr ⟨["p"], "q", [], [⟨"\\#\\"⟩], by decide, fun s hs t hgap => ?_,
    ⟨⟨rfl, by simp [hsymbols], by decide⟩, fun t hgap => ?_⟩, rfl⟩⟩
  · obtain rfl := List.mem_singleton.mp hs
    rcases hplace hgap with rfl | rfl
    · exact absurd hgap.unread (by decide)
    · exact absurd hgap.unread (by decide)
  · rcases hplace hgap with rfl | rfl
    · exact absurd hgap.unread (by decide)
    · exact .inl rfl

end OneTape.Coverage
