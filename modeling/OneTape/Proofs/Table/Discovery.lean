import OneTape.Proofs.Strip
import OneTape.Proofs.Table.Run
import OneTape.Proofs.Table.Sweeps

/-!
# The sweep to the right at work

On the strips of the virtual tapes, discovery walks from head to head as long as some rule reads the
symbols found so far.

Result: `reach_head`: the walk to a head, if a rule agrees with the strips in front of it.
-/

namespace OneTape.Table

open Instant Relation

variable {a : Alphabet} {rule : Rule} {T : Nat → Row → Prop} {n : Nat} {u v t : List Symbol}
  {s : Strip}

/-- The rows by which discovery walks right for a rule are allowed. At the left end of the tape a
row has to keep the boundary. -/
def AllowsDiscovery (a : Alphabet) (rule : Rule) (T : Nat → Row → Prop) : Prop :=
  ∀ m r, Discovers a rule r → r.move = .right → (m = 0 → r.write = Symbol.boundary) → T m r

theorem scan_walk (hT : AllowsDiscovery a rule T) (hn : n < rule.read.length) (hu : u ≠ [])
    (ht : ∀ c ∈ t, c ∈ a.unmarked) (hv : v ≠ []) :
    ReflTransGen (Walks T) (ahead (prefixState a rule n) u (t ++ v))
      (ahead (prefixState a rule n) (u ++ t) v) := by
  have hpos : 0 < u.length := List.length_pos_iff.mpr hu
  exact walks_over hv fun m hm c hc => hT m _ (.scan hn (ht c hc)) rfl fun h => by omega

/-- The symbol under a head is recorded, also where the head is past the end of its tape. -/
theorem record_walk (hT : AllowsDiscovery a rule T) (hread : rule.read[n]? = some s.read)
    (hu : u ≠ []) (hv : v ≠ []) :
    Walks T (ahead (prefixState a rule n) u (a.marker s.under :: v))
      (ahead (prefixState a rule (n + 1)) (u ++ [a.marker s.under]) v) := by
  refine Walks.right hv (hT _ _ ?_ rfl fun h => absurd h (by simpa using hu))
  cases hs : s.after with
  | nil =>
    have hunder : s.under = Symbol.boundary := by simp [Strip.under, hs]
    have hblank : s.read = Symbol.blank := by simp [Strip.read, hs]
    rw [hblank] at hread
    rw [hunder]
    exact .recordEdge hread
  | cons x rest =>
    have hunder : s.under = s.read := by simp [Strip.under, Strip.read, hs]
    rw [hunder]
    exact .record hread

/-- **Discovery walks to a head**, if a rule agrees with the strips in front of it. The state then
knows the symbols of these strips. -/
theorem reach_head (strips : List Strip) (s : Strip) (v : List Symbol)
    (hT : AllowsDiscovery a rule T) (hu : u ≠ []) (ht : ∀ c ∈ t, c ∈ a.unmarked) (hs : s.Over a)
    (hover : ∀ x ∈ strips, x.Over a) (hread : strips.map Strip.read <+: rule.read.drop n)
    (hlen : n + strips.length < rule.read.length) :
    ReflTransGen (Walks T)
      (ahead (prefixState a rule n) u (t ++ (strips.flatMap (Strip.cells a) ++ (s.cells a ++ v))))
      (ahead (prefixState a rule (n + strips.length))
        (u ++ (t ++ (strips.flatMap (Strip.cells a) ++ s.before)))
        (a.marker s.under :: (s.rest ++ v))) := by
  have hbefore : ∀ {x : Strip}, x.Over a → ∀ c ∈ x.before, c ∈ a.unmarked := fun hx c hc =>
    Alphabet.mem_unmarked_of_mem_symbols (hx.before_mem c hc)
  induction strips generalizing n u t with
  | nil =>
    have hscan := scan_walk (t := t ++ s.before) (v := a.marker s.under :: (s.rest ++ v)) hT hlen hu
      (by
        intro c hc
        rcases List.mem_append.mp hc with hc | hc
        · exact ht c hc
        · exact hbefore hs c hc)
      (by simp)
    simpa [Strip.cells] using hscan
  | cons x strips ih =>
    have hx := hover x List.mem_cons_self
    obtain ⟨more, hmore⟩ := hread
    have hget : rule.read[n]? = some x.read := by
      have := congrArg (·[0]?) hmore
      simpa using this.symm
    have hdrop : strips.map Strip.read <+: rule.read.drop (n + 1) := by
      refine ⟨more, ?_⟩
      have := congrArg List.tail hmore
      simpa using this
    simp only [List.length_cons] at hlen
    -- over the cells in front of the head, then over the head itself
    have hscan := scan_walk (t := t ++ x.before) (v := a.marker x.under :: (x.rest ++
        (strips.flatMap (Strip.cells a) ++ (s.cells a ++ v)))) hT
      (by omega : n < rule.read.length) hu
      (by
        intro c hc
        rcases List.mem_append.mp hc with hc | hc
        · exact ht c hc
        · exact hbefore hx c hc)
      (by simp)
    have hrecord := record_walk (u := u ++ (t ++ x.before)) (v := x.rest ++
        (strips.flatMap (Strip.cells a) ++ (s.cells a ++ v))) hT hget
      (by simp [hu]) (by simp [Strip.cells])
    have hrest := ih (n := n + 1) (u := u ++ (t ++ x.before) ++ [a.marker x.under]) (t := x.rest)
      (by simp) hx.rest_mem (fun y hy => hover y (List.mem_cons_of_mem x hy)) hdrop (by omega)
    have hwalk := hscan.trans (.head hrecord hrest)
    have hcount : n + 1 + strips.length = n + (strips.length + 1) := by omega
    simpa [Strip.cells, hcount] using hwalk

theorem prefixState_inj {rule' : Rule} {m : Nat} (hn : n ≤ rule.read.length)
    (hm : m ≤ rule'.read.length) (h : prefixState a rule n = prefixState a rule' m) :
    rule.state = rule'.state ∧ n = m ∧ rule.read.take n = rule'.read.take m := by
  simp only [prefixState, discovered, State.mk.injEq, and_true] at h
  have htake := Alphabet.map_marker_injective h.2
  have hlen := congrArg List.length htake
  simp only [List.length_take] at hlen
  exact ⟨h.1, by omega, htake⟩

theorem prefixState_length (rule : Rule) :
    prefixState a rule rule.read.length = ruleState a rule .discover := by
  simp [prefixState, ruleState, discovered]

theorem prefixState_zero (rule : Rule) : prefixState a rule 0 = State.source rule.state := by
  simp [prefixState, discovered, State.source]

end OneTape.Table
