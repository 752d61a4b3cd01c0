import Mathlib.Data.List.TakeWhile
import Mathlib.Tactic.Common
import OneTape.Proofs.Symbol
import OneTape.State

/-!
# Names of states

The name of a state is read back in one way only, as long as source states and symbols do not use
the characters that the parts of a name are joined with.

Results:
* `Phase.suffix_injective`: the phase is read off the end of the name.
* `State.name_injective`: different states have different names.
-/

namespace OneTape

/-- A word up to the first character of a kind is found in one way. -/
theorem append_inj_of_takeWhile {α : Type} {p : α → Bool} {u u' v v' : List α}
    (hu : ∀ c ∈ u, p c = true) (hu' : ∀ c ∈ u', p c = true) (hv : ∀ c ∈ v.head?, p c = false)
    (hv' : ∀ c ∈ v'.head?, p c = false) (h : u ++ v = u' ++ v') : u = u' ∧ v = v' := by
  have hstop : ∀ {w : List α}, (∀ c ∈ w.head?, p c = false) → w.takeWhile p = [] := by
    intro w hw
    cases w with
    | nil => rfl
    | cons c w => rw [List.takeWhile_cons, hw c rfl]; rfl
  have htake := congrArg (List.takeWhile p) h
  rw [List.takeWhile_append_of_pos hu, List.takeWhile_append_of_pos hu', hstop hv, hstop hv',
    List.append_nil, List.append_nil] at htake
  subst htake
  exact ⟨rfl, List.append_cancel_left h⟩

theorem toDigits_injective {m n : Nat} (h : Nat.toDigits 10 m = Nat.toDigits 10 n) : m = n := by
  have hm := Nat.ofDigitChars_toDigits (b := 10) (n := m) (by decide) (by decide)
  rwa [h, Nat.ofDigitChars_toDigits (by decide) (by decide), eq_comm] at hm

theorem isDigit_toDigits {n : Nat} : ∀ c ∈ Nat.toDigits 10 n, c.isDigit = true := fun _ hc =>
  Nat.isDigit_of_mem_toDigits (by decide) (by decide) hc

/-! ## Phases -/

namespace Phase

/-- Whether a phase is one of the two sweeps. -/
def isSweep : Phase → Bool
  | extend .. | inject _ => false
  | _ => true

/-- The phase is that of a sweep, of an extension of one, or of the injection pass. -/
def Readable : Phase → Prop
  | extend owner _ _ => owner.isSweep = true
  | _ => True

/-- The sweep that a phase belongs to. -/
def sweep : Phase → Phase
  | extend owner _ _ => owner
  | inject _ => discover
  | p => p

/-- What follows the sweep in the name of a phase. -/
def addition : Phase → List Char
  | extend _ side step => '!' :: (side.letter.toList ++ step.suffix.toList)
  | inject step => step.suffix.toList
  | _ => []

variable {p q : Phase}

theorem toList_suffix (p : Phase) : p.suffix.toList = p.sweep.suffix.toList ++ p.addition := by
  cases p <;> simp [suffix, sweep, addition]

/-- The digits and the letter in the name of a sweep. -/
def signature : Phase → List Char × List Char
  | actor n => (Nat.toDigits 10 n, [])
  | active n => (Nat.toDigits 10 n, ['a'])
  | _ => ([], ['F'])

theorem toList_suffix_of_isSweep (h : p.isSweep = true) :
    p.suffix.toList = if p = discover then [] else ':' :: (p.signature.1 ++ p.signature.2) := by
  cases p <;> simp_all [suffix, isSweep, signature, Nat.toList_repr]

theorem eq_of_signature (h : p.isSweep = true) (h' : q.isSweep = true) (hp : p ≠ discover)
    (hq : q ≠ discover) (hs : p.signature = q.signature) : p = q := by
  have hne : ∀ n, Nat.toDigits 10 n ≠ [] := fun n => Nat.toDigits_ne_nil
  cases p <;> cases q <;> simp_all [isSweep, signature]
  all_goals exact toDigits_injective hs

theorem suffix_injective_of_isSweep (h : p.isSweep = true) (h' : q.isSweep = true)
    (hs : p.suffix.toList = q.suffix.toList) : p = q := by
  rw [toList_suffix_of_isSweep h, toList_suffix_of_isSweep h'] at hs
  have hdigits : ∀ p : Phase, ∀ c ∈ p.signature.1, c.isDigit = true := by
    intro p
    cases p <;> simp [signature] <;> exact isDigit_toDigits
  have hletter : ∀ p : Phase, ∀ c ∈ p.signature.2.head?, c.isDigit = false := by
    intro p
    cases p <;> simp [signature]
  split_ifs at hs with hp hq hq
  · rw [hp, hq]
  · obtain ⟨h1, h2⟩ := append_inj_of_takeWhile (hdigits p) (hdigits q) (hletter p) (hletter q)
      (List.cons.inj hs).2
    exact eq_of_signature h h' hp hq (Prod.ext h1 h2)

theorem bang_notMem_suffix (h : p.isSweep = true) : '!' ∉ p.suffix.toList := by
  have hdigits : ∀ n, '!' ∉ Nat.toDigits 10 n :=
    fun n hn => absurd (isDigit_toDigits _ hn) (by decide)
  cases p <;> simp_all [suffix, isSweep, Nat.toList_repr]

theorem isSweep_sweep (h : p.Readable) : p.sweep.isSweep = true := by
  cases p with
  | extend => exact h
  | _ => rfl

theorem addition_head (p : Phase) : ∀ c ∈ p.addition.head?, c = '!' := by
  cases p with
  | inject step => cases step <;> simp [addition, InjectionStep.suffix]
  | _ => simp [addition]

theorem extension_injective {side side' : Side} {step step' : ExtensionStep}
    (h : side.letter.toList ++ step.suffix.toList = side'.letter.toList ++ step'.suffix.toList) :
    side = side' ∧ step = step' := by
  cases side <;> cases side' <;> cases step <;> cases step' <;>
    simp_all [Side.letter, ExtensionStep.suffix]
  all_goals exact Symbol.ext_toList h

/-- The sweep and what follows it tell the phase. -/
theorem eq_of_sweep_of_addition (hsweep : p.sweep = q.sweep)
    (hadd : p.addition = q.addition) : p = q := by
  have hinject : ∀ {side : Side} {step : ExtensionStep} {step' : InjectionStep},
      '!' :: (side.letter.toList ++ step.suffix.toList) ≠ step'.suffix.toList := by
    intro side step step' h
    cases side <;> cases step' <;> simp [Side.letter, InjectionStep.suffix] at h
  have hne : ∀ step : InjectionStep, step.suffix.toList ≠ [] := by
    intro step
    cases step <;> simp [InjectionStep.suffix]
  cases p with
  | extend owner side step =>
    cases q with
    | extend owner' side' step' =>
      obtain ⟨rfl, rfl⟩ := extension_injective (List.cons.inj hadd).2
      exact congrArg (extend · side step) hsweep
    | inject step' => exact absurd hadd hinject
    | _ => cases hadd
  | inject step =>
    cases q with
    | extend owner' side' step' => exact absurd hadd.symm hinject
    | inject step' => cases step <;> cases step' <;> simp_all [addition, InjectionStep.suffix]
    | _ => exact absurd hadd (hne step)
  | _ =>
    cases q with
    | extend => cases hadd
    | inject step' => exact absurd hadd.symm (hne step')
    | _ => exact hsweep

/-- **The phase is read off the end of the name.** -/
theorem suffix_injective (hp : p.Readable) (hq : q.Readable)
    (h : p.suffix.toList = q.suffix.toList) :
    p = q := by
  rw [toList_suffix p, toList_suffix q] at h
  have hbang : ∀ {p : Phase}, p.Readable → ∀ c ∈ p.sweep.suffix.toList, (c != '!') = true := by
    intro p hp c hc
    have : c ≠ '!' := fun he => bang_notMem_suffix (isSweep_sweep hp) (he ▸ hc)
    simpa using this
  have hhead : ∀ p : Phase, ∀ c ∈ p.addition.head?, (c != '!') = false := by
    intro p c hc
    simpa using addition_head p c hc
  obtain ⟨hsweep, hadd⟩ := append_inj_of_takeWhile (hbang hp) (hbang hq) (hhead p) (hhead q) h
  exact eq_of_sweep_of_addition
    (suffix_injective_of_isSweep (isSweep_sweep hp) (isSweep_sweep hq) hsweep) hadd

theorem suffix_head (p : Phase) (hp : p.Readable) :
    ∀ c ∈ p.suffix.toList.head?, c = ':' ∨ c = '!' := by
  intro c hc
  rw [toList_suffix p, toList_suffix_of_isSweep (isSweep_sweep hp)] at hc
  split_ifs at hc
  · exact .inr (addition_head p c (by simpa using hc))
  · exact .inl (by simpa using hc.symm)

end Phase

/-! ## States -/

namespace State

/-- A state whose name can be read back: its source state is free of the characters that follow it
in the name, its markers are free of the closing bracket. -/
structure Readable (s : State) : Prop where
  base : ∀ c ∈ s.base.toList, c ≠ '[' ∧ c ≠ ':' ∧ c ≠ '!'
  heads : ∀ h ∈ s.heads, ']' ∉ h.text.toList
  phase : s.phase.Readable

/-- The markers of a state in its name. -/
def brackets (heads : List Symbol) : List Char :=
  heads.flatMap fun h => '[' :: (h.text.toList ++ [']'])

theorem toList_name (s : State) :
    s.name.toList = s.base.toList ++ (brackets s.heads ++ s.phase.suffix.toList) := by
  simp [name, headText, brackets, List.flatMap_map]

theorem brackets_head {heads : List Symbol} {rest : List Char}
    (h : ∀ c ∈ rest.head?, c = ':' ∨ c = '!') :
    ∀ c ∈ (brackets heads ++ rest).head?, c = '[' ∨ c = ':' ∨ c = '!' := by
  intro c hc
  cases heads with
  | nil => exact .inr (h c hc)
  | cons s heads => exact .inl (by simpa [brackets] using hc.symm)

/-- The markers are found one after the other. -/
theorem brackets_injective {xs ys : List Symbol} {u v : List Char}
    (hx : ∀ h ∈ xs, ']' ∉ h.text.toList) (hy : ∀ h ∈ ys, ']' ∉ h.text.toList)
    (hu : ∀ c ∈ u.head?, c = ':' ∨ c = '!') (hv : ∀ c ∈ v.head?, c = ':' ∨ c = '!')
    (h : brackets xs ++ u = brackets ys ++ v) : xs = ys ∧ u = v := by
  have hno : ∀ {w t : List Char}, (∀ c ∈ w.head?, c = ':' ∨ c = '!') → w ≠ '[' :: t := by
    rintro w t hw rfl
    exact absurd (hw '[' rfl) (by decide)
  induction xs generalizing ys with
  | nil =>
    cases ys with
    | nil => exact ⟨rfl, h⟩
    | cons y ys => exact absurd h (hno hu)
  | cons x xs ih =>
    cases ys with
    | nil => exact absurd h.symm (hno hv)
    | cons y ys =>
      have hplain : ∀ {s : Symbol}, ']' ∉ s.text.toList →
          ∀ c ∈ s.text.toList, (c != ']') = true := by
        intro s hs c hc
        have : c ≠ ']' := fun he => hs (he ▸ hc)
        simpa using this
      have hsplit : x.text.toList ++ (']' :: (brackets xs ++ u)) =
          y.text.toList ++ (']' :: (brackets ys ++ v)) := by
        simpa [brackets] using h
      obtain ⟨htext, hrest⟩ := append_inj_of_takeWhile (hplain (hx x (by simp)))
        (hplain (hy y (by simp))) (by simp) (by simp) hsplit
      obtain ⟨rfl, huv⟩ := ih (fun s hs => hx s (by simp [hs])) (fun s hs => hy s (by simp [hs]))
        (List.cons.inj hrest).2
      exact ⟨by rw [Symbol.ext_toList htext], huv⟩

/-- **Different states have different names.** -/
theorem name_injective {s t : State} (hs : s.Readable) (ht : t.Readable)
    (h : s.name = t.name) : s = t := by
  have hplain : ∀ {s : State}, s.Readable →
      ∀ c ∈ s.base.toList, (c != '[' && c != ':' && c != '!') = true := by
    intro s hs c hc
    obtain ⟨h1, h2, h3⟩ := hs.base c hc
    simp [h1, h2, h3]
  have hstop : ∀ {s : State}, s.Readable → ∀ c ∈ (brackets s.heads ++ s.phase.suffix.toList).head?,
      (c != '[' && c != ':' && c != '!') = false := by
    intro s hs c hc
    rcases brackets_head (s.phase.suffix_head hs.phase) c hc with rfl | rfl | rfl <;> rfl
  have hname := congrArg String.toList h
  rw [toList_name, toList_name] at hname
  obtain ⟨hbase, hrest⟩ :=
    append_inj_of_takeWhile (hplain hs) (hplain ht) (hstop hs) (hstop ht) hname
  obtain ⟨hheads, hsuffix⟩ := brackets_injective hs.heads ht.heads (s.phase.suffix_head hs.phase)
    (t.phase.suffix_head ht.phase) hrest
  obtain ⟨base, heads, phase⟩ := s
  obtain ⟨base', heads', phase'⟩ := t
  obtain rfl := String.toList_inj.mp hbase
  obtain rfl : heads = heads' := hheads
  obtain rfl := Phase.suffix_injective hs.phase ht.phase hsuffix
  rfl

end State
end OneTape
