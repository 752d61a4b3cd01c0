import OneTape.Proofs.Name
import OneTape.Proofs.Table.Effect

/-!
# Names that contain names

When a compiled machine is compiled again, its states are the source states of the next compilation,
so names grow out of names: a name is followed by markers in brackets and by a phase. It can still
be read back if the markers carry an iteration that no marker inside the first name carries. What
stands in brackets is then a marker of the first name, a marker of the new iteration, or a symbol
that a shift carries, and the last kind is known by the letters in front of the bracket.

Results:
* `Spelled`: a text is spelled with markers of some iterations.
* `State.Nested.spelled_name`: the name of a state is spelled with the iterations of its source
  state and its own.
* `State.Nested.name_injective`: different states have different names.
-/

namespace OneTape

/-! ## Texts with brackets -/

namespace Symbol

/-- The text of the symbol has no bracket. -/
def Unbracketed (s : Symbol) : Prop := ∀ c ∈ s.text.toList, c ∉ ['[', ']']

theorem Unbracketed.open_notMem {s : Symbol} (h : s.Unbracketed) : '[' ∉ s.text.toList := fun hc =>
  h _ hc (by decide)

theorem Unbracketed.close_notMem {s : Symbol} (h : s.Unbracketed) : ']' ∉ s.text.toList := fun hc =>
  h _ hc (by decide)

/-- The digits at the end of a text are found in one way. -/
theorem markerSuffix_injective {i j : Nat} {t : List Char} (hi : markerSuffix i <:+ t)
    (hj : markerSuffix j <:+ t) : i = j := by
  have hdot : ∀ n, '.' ∉ Nat.toDigits 10 n := fun n hn => absurd (isDigit_toDigits _ hn) (by decide)
  have hsuffix : ∀ {i j}, markerSuffix i <:+ markerSuffix j → i = j := by
    intro i j h
    rcases List.suffix_cons_iff.mp h with h | h
    · exact toDigits_injective (List.cons.inj h).2
    · exact absurd (h.subset List.mem_cons_self) (hdot j)
  rcases Nat.le_total (markerSuffix i).length (markerSuffix j).length with h | h
  · exact hsuffix (List.suffix_of_suffix_length_le hi hj h)
  · exact (hsuffix (List.suffix_of_suffix_length_le hj hi h)).symm

end Symbol

/-- The text ends like the name of a shift in front of the symbol that it carries. -/
def Carrying (u : List Char) : Prop := ∃ side : Side, '!' :: side.letter.toList ++ ['S'] <:+ u

/-- Every bracket is closed. -/
def BracketsClosed (w : List Char) : Prop := ∀ u v, w = u ++ '[' :: v → ']' ∈ v

/-- The text is spelled with markers of some iterations: brackets are closed, and what stands in
brackets is such a marker, except behind the letters of a shift, with which the text does not
end. -/
structure Spelled (used : List Nat) (w : List Char) : Prop where
  closed : BracketsClosed w
  not_carrying : ¬ Carrying w
  marked : ∀ u t v, w = u ++ '[' :: (t ++ ']' :: v) → ']' ∉ t →
    Carrying u ∨ ∃ i ∈ used, Symbol.markerSuffix i <:+ t

variable {used : List Nat} {u v w z p t : List Char} {i : Nat}

/-- The letters of a shift end in `S`, so a text that ends in another one is not carrying. -/
theorem not_carrying_append (hne : z ≠ []) (h : 'S' ∉ z) : ¬ Carrying (w ++ z) := by
  rintro ⟨side, pre, hw⟩
  have hlast := congrArg List.getLast? hw
  rw [← List.append_assoc, List.getLast?_concat, List.getLast?_append_of_ne_nil _ hne] at hlast
  exact h (List.mem_of_getLast? hlast.symm)

/-- A bracketed part of two texts in a row lies within the first, if that is closed, or within the
second. -/
theorem BracketsClosed.within_or_behind (hw : BracketsClosed w)
    (h : w ++ z = u ++ '[' :: (t ++ ']' :: v)) (ht : ']' ∉ t) :
    (∃ v', w = u ++ '[' :: (t ++ ']' :: v')) ∨
      ∃ u', u = w ++ u' ∧ z = u' ++ '[' :: (t ++ ']' :: v) := by
  rcases List.append_eq_append_iff.mp h with ⟨u', hu, hz⟩ | ⟨x, hwx, hx⟩
  · exact .inr ⟨u', hu, hz⟩
  · rcases List.cons_eq_append_iff.mp hx with ⟨rfl, hz⟩ | ⟨x', rfl, hx'⟩
    · exact .inr ⟨[], by simpa using hwx.symm, hz⟩
    · -- the part begins within `w`, where its bracket is closed, so it ends there too
      have hclosed := hw u x' hwx
      rcases List.append_eq_append_iff.mp hx' with ⟨y, hy, hv⟩ | ⟨y, hy, hz⟩
      · rcases List.cons_eq_append_iff.mp hv with ⟨rfl, -⟩ | ⟨y', rfl, -⟩
        · rw [hy, List.append_nil] at hclosed
          exact absurd hclosed ht
        · exact .inl ⟨y', by rw [hwx, hy]⟩
      · exact absurd (hy ▸ List.mem_append_left y hclosed) ht

namespace Spelled

theorem mono {used' : List Nat} (h : Spelled used w) (hsub : ∀ i ∈ used, i ∈ used') :
    Spelled used' w where
  closed := h.closed
  not_carrying := h.not_carrying
  marked u t v hw ht := (h.marked u t v hw ht).imp_right fun ⟨i, hi, hs⟩ => ⟨i, hsub i hi, hs⟩

/-- A text without brackets and without the sign of an extension. -/
theorem of_plain (hbracket : '[' ∉ w) (hbang : '!' ∉ w) : Spelled used w where
  closed u v hw := absurd (by simp [hw]) hbracket
  not_carrying := fun ⟨_, h⟩ => hbang (h.subset List.mem_cons_self)
  marked u t v hw _ := absurd (by simp [hw]) hbracket

/-- More of a text, without brackets. -/
theorem append_plain (h : Spelled used w) (hp : '[' ∉ p) (hend : 'S' ∉ p) :
    Spelled used (w ++ p) where
  closed u v hw := by
    rcases List.append_eq_append_iff.mp hw with ⟨x, -, hx⟩ | ⟨x, hwx, hx⟩
    · exact absurd (by simp [hx]) hp
    · rcases List.cons_eq_append_iff.mp hx with ⟨-, hpv⟩ | ⟨x', rfl, hv⟩
      · exact absurd (by simp [hpv]) hp
      · exact hv ▸ List.mem_append_left p (h.closed u x' hwx)
  not_carrying := by
    by_cases hne : p = []
    · rw [hne, List.append_nil]
      exact h.not_carrying
    · exact not_carrying_append hne hend
  marked u t v hw ht := by
    rcases h.closed.within_or_behind hw ht with ⟨v', hv'⟩ | ⟨u', -, hp'⟩
    · exact h.marked u t v' hv' ht
    · exact absurd (by simp [hp']) hp

/-- More of a text, with one pair of brackets at its end. -/
theorem append_bracketed (h : Spelled used w) (hp : '[' ∉ p) {s : Symbol} (hs : s.Unbracketed)
    (hmark : Carrying (w ++ p) ∨ ∃ i ∈ used, Symbol.markerSuffix i <:+ s.text.toList) :
    Spelled used (w ++ p ++ '[' :: s.text.toList ++ [']']) where
  closed u v hw := by
    rcases List.eq_nil_or_concat v with rfl | ⟨v, c, rfl⟩
    · exact absurd (List.append_inj_right' hw rfl) (by decide)
    · have hlast := congrArg List.getLast? hw
      rw [← List.concat_cons, List.getLast?_concat, List.concat_eq_append, ← List.append_assoc,
        List.getLast?_concat] at hlast
      obtain rfl := Option.some.inj hlast
      simp
  not_carrying := not_carrying_append (List.cons_ne_nil _ _) (by decide)
  marked u t v hw ht := by
    have hsplit : w ++ (p ++ '[' :: (s.text.toList ++ [']'])) = u ++ '[' :: (t ++ ']' :: v) := by
      simpa using hw
    rcases h.closed.within_or_behind hsplit ht with ⟨v', hv'⟩ | ⟨u', hu, hz⟩
    · exact h.marked u t v' hv' ht
    · have hrest : '[' ∉ s.text.toList ++ [']'] := by simp [hs.open_notMem]
      obtain ⟨rfl, -, hgroup⟩ := (List.append_cons_inj_of_notMem hp hrest).mp hz
      obtain ⟨rfl, -, -⟩ :=
        (List.append_cons_inj_of_notMem hs.close_notMem List.not_mem_nil).mp hgroup
      rw [hu]
      exact hmark

theorem append_brackets {heads : List Symbol} (h : Spelled used w)
    (hu : ∀ s ∈ heads, s.Unbracketed) (hm : ∀ s ∈ heads, ∃ i ∈ used, s.isMarkerLike i = true) :
    Spelled used (w ++ State.brackets heads) := by
  induction heads generalizing w with
  | nil => simpa [State.brackets] using h
  | cons s heads ih =>
    obtain ⟨i, hi, hs⟩ := hm s List.mem_cons_self
    have hfirst := h.append_bracketed (p := []) List.not_mem_nil (hu s List.mem_cons_self)
      (.inr ⟨i, hi, Symbol.isMarkerLike_iff.mp hs⟩)
    have hall := ih hfirst (fun s hs => hu s (List.mem_cons_of_mem _ hs))
      (fun s hs => hm s (List.mem_cons_of_mem _ hs))
    simpa [State.brackets] using hall

end Spelled

/-! ## The parts of a name -/

theorem Phase.mem_suffix_of_isSweep {p : Phase} {c : Char} (h : p.isSweep = true)
    (hc : c ∈ p.suffix.toList) :
    c.isDigit = true ∨ c ∈ [':', 'a', 'F'] := by
  have hdigit : ∀ n, c ∈ Nat.toDigits 10 n → c.isDigit = true := fun n => isDigit_toDigits c
  rw [toList_suffix_of_isSweep h] at hc
  cases p <;> simp [signature] at hc ⊢ <;> grind

/-- What follows the sweep in the names of states that carry nothing. -/
def Phase.signs : List (List Char) :=
  ["", "!lM", "!rM", "!lR", "!rR", "!inj", "!inj>", "!inj<"].map String.toList

/-- A name ends in one of the signs, or in the symbol that a shift carries. -/
theorem State.addition_cases (s : State) : s.phase.addition ∈ Phase.signs ∨
    ∃ (side : Side) (x : Symbol), s.carried = [x] ∧
      s.phase.addition = '!' :: side.letter.toList ++ ['S'] ++ '[' :: x.text.toList ++ [']'] := by
  obtain ⟨base, heads, phase⟩ := s
  cases phase with
  | extend owner side step =>
    cases step with
    | shift x =>
      refine .inr ⟨side, x, rfl, ?_⟩
      simp [Phase.addition, ExtensionStep.suffix]
    | realign | comeBack =>
      left
      cases side <;> simp [Phase.addition, Phase.signs, ExtensionStep.suffix, Side.letter]
  | inject step =>
    left
    cases step <;> simp [Phase.addition, Phase.signs, InjectionStep.suffix]
  | _ =>
    left
    simp [Phase.addition, Phase.signs]

/-- The name of a phase adds no brackets but those of a shift. -/
theorem Spelled.append_suffix {s : State} (h : Spelled used w) (hs : s.phase.Readable)
    (hc : ∀ c ∈ s.carried, c.Unbracketed) : Spelled used (w ++ s.phase.suffix.toList) := by
  have hplain : ∀ c : Char, c.isDigit = false → c ∉ [':', 'a', 'F'] →
      c ∉ s.phase.sweep.suffix.toList := by
    intro c hdigit hsign hmem
    rcases Phase.mem_suffix_of_isSweep (Phase.isSweep_sweep hs) hmem with h | h
    · exact absurd (h.symm.trans hdigit) (by decide)
    · exact hsign h
  have hsweep := h.append_plain (hplain '[' (by decide) (by decide))
    (hplain 'S' (by decide) (by decide))
  rw [Phase.toList_suffix, ← List.append_assoc]
  rcases s.addition_cases with hsign | ⟨side, x, hx, hadd⟩
  · have hsigns : ∀ t ∈ Phase.signs, '[' ∉ t ∧ 'S' ∉ t := by decide
    obtain ⟨hopen, hletter⟩ := hsigns _ hsign
    exact hsweep.append_plain hopen hletter
  · have hshift := hsweep.append_bracketed (p := '!' :: side.letter.toList ++ ['S'])
      (by cases side <;> decide) (hc x (by simp [hx])) (.inl ⟨side, List.suffix_append _ _⟩)
    rw [hadd]
    simpa only [List.append_assoc] using hshift

/-! ## States with nested names -/

namespace State

/-- A state over a source state whose name is spelled with markers of some iterations, with markers
of another iteration. -/
structure Nested (used : List Nat) (i : Nat) (s : State) : Prop where
  base : Spelled used s.base.toList
  heads : ∀ h ∈ s.heads, h.Unbracketed ∧ h.isMarkerLike i = true
  carried : ∀ c ∈ s.carried, c.Unbracketed
  phase : s.phase.Readable
  source : s.heads = [] → s.phase = .discover

namespace Nested

variable {s t : State}

theorem spelled_name (hs : s.Nested used i) : Spelled (i :: used) s.name.toList := by
  have hbase := hs.base.mono fun _ => List.mem_cons_of_mem i
  have hheads := hbase.append_brackets (fun h hh => (hs.heads h hh).1)
    fun h hh => ⟨i, List.mem_cons_self, (hs.heads h hh).2⟩
  rw [toList_name, ← List.append_assoc]
  exact hheads.append_suffix hs.phase hs.carried

/-- The first marker of a state does not stand within the source state of another one. -/
theorem base_isPrefix (hi : i ∉ used) (hs : s.Nested used i) (ht : t.Nested used i)
    (h : s.name = t.name) (hne : s.heads ≠ []) : t.base.toList <+: s.base.toList := by
  obtain ⟨x, heads, hx⟩ := List.exists_cons_of_ne_nil hne
  obtain ⟨hu, hm⟩ := hs.heads x (hx ▸ List.mem_cons_self)
  have hname : t.base.toList ++ (brackets t.heads ++ t.phase.suffix.toList) =
      s.base.toList ++
        '[' :: (x.text.toList ++ ']' :: (brackets heads ++ s.phase.suffix.toList)) := by
    rw [← toList_name, ← h, toList_name, hx]
    simp [brackets]
  rcases ht.base.closed.within_or_behind hname hu.close_notMem with ⟨v, hv⟩ | ⟨u, hu, -⟩
  · -- within the source state of `t` the marker would have an old iteration
    -- or be carried by a shift
    rcases ht.base.marked _ _ _ hv hu.close_notMem with hc | ⟨j, hj, hsuffix⟩
    · exact absurd hc hs.base.not_carrying
    · have := Symbol.markerSuffix_injective (Symbol.isMarkerLike_iff.mp hm) hsuffix
      exact absurd (this ▸ hj) hi
  · exact ⟨u, hu.symm⟩

/-- A state without markers has a name that no state with markers has. -/
theorem heads_ne_nil (hi : i ∉ used) (hs : s.Nested used i) (ht : t.Nested used i)
    (h : s.name = t.name) (hne : s.heads ≠ []) : t.heads ≠ [] := by
  intro hnil
  have hlen := (base_isPrefix hi hs ht h hne).length_le
  obtain ⟨x, heads, hx⟩ := List.exists_cons_of_ne_nil hne
  have hlong : s.base.toList.length < s.name.toList.length := by
    simp [toList_name, hx, brackets]
  have hshort : t.name.toList.length = t.base.toList.length := by
    simp [toList_name, hnil, ht.source hnil, brackets, Phase.suffix]
  rw [h] at hlong
  omega

/-- **Different states have different names**, also if the source states are named with markers. -/
theorem name_injective (hi : i ∉ used) (hs : s.Nested used i) (ht : t.Nested used i)
    (h : s.name = t.name) : s = t := by
  obtain ⟨base, heads, phase⟩ := s
  obtain ⟨base', heads', phase'⟩ := t
  by_cases hne : heads = []
  · have hne' : heads' = [] := by
      by_contra hne'
      exact heads_ne_nil hi ht hs h.symm hne' hne
    obtain rfl := hs.source hne
    obtain rfl := ht.source hne'
    subst hne hne'
    simpa [name, headText, Phase.suffix] using h
  · have hne' := heads_ne_nil hi hs ht h hne
    have hlen := Nat.le_antisymm (base_isPrefix hi ht hs h.symm hne').length_le
      (base_isPrefix hi hs ht h hne).length_le
    obtain rfl := String.toList_inj.mp ((base_isPrefix hi ht hs h.symm hne').eq_of_length hlen)
    have hname := congrArg String.toList h
    rw [toList_name, toList_name] at hname
    obtain ⟨rfl, hsuffix⟩ := brackets_injective (fun h hh => (hs.heads h hh).1.close_notMem)
      (fun h hh => (ht.heads h hh).1.close_notMem) (Phase.suffix_head _ hs.phase)
      (Phase.suffix_head _ ht.phase) (List.append_cancel_left hname)
    obtain rfl := Phase.suffix_injective hs.phase ht.phase hsuffix
    rfl

end Nested
end State
end OneTape
