import OneTape.Proofs.Table.Extension
import OneTape.Proofs.Table.Run

/-!
# The shift subroutine at work

Started right of a return mark, the shift subroutine moves everything up to the tape end one cell to
the right, puts the symbol it carries in front, and comes back to the return mark.

Result: `shift_walk`.
-/

namespace OneTape.Table

open Instant Relation

variable {a : Alphabet} {owner : State} {side : Side} {resume : Resume} {T : Nat → Row → Prop}
  {c : Symbol} {u v : List Symbol} {n : Nat}

/-- The tape end gives way to the boundary in front of it and is written again one cell further. -/
theorem moveEnd_walk (hc : a.IsEdge c)
    (hT : ∀ m, u.length ≤ m → ∀ r, Shifts a owner side resume r → T m r) :
    ReflTransGen (Walks T)
      (ahead (shifting owner side c) u (Symbol.tapeEnd :: List.replicate n Symbol.blank))
      (behind (comingBack owner side) (u ++ [c])
        (Symbol.tapeEnd :: List.replicate (n - 1) Symbol.blank)) := by
  have hmove := hT u.length (Nat.le_refl _) _ (.moveEnd hc)
  have hturn := hT (u ++ [c]).length (by simp) _ .turn
  cases n with
  | zero =>
    refine .head (Walks.right_end hmove) (.single ?_)
    exact Walks.left (by simp) hturn
  | succ n =>
    refine .head (Walks.right (by simp) hmove) (.single ?_)
    exact Walks.left (by simp) hturn

/-- Every symbol moves one cell to the right. -/
theorem relay_walk (hc : c ∈ a.library) (hv : ∀ x ∈ v, x ∈ a.library)
    (hlast : a.IsEdge ((c :: v).getLast (List.cons_ne_nil c v)))
    (hT : ∀ m, u.length ≤ m → ∀ r, Shifts a owner side resume r → T m r) :
    ReflTransGen (Walks T)
      (ahead (shifting owner side c) u (v ++ Symbol.tapeEnd :: List.replicate n Symbol.blank))
      (behind (comingBack owner side) (u ++ c :: v)
        (Symbol.tapeEnd :: List.replicate (n - 1) Symbol.blank)) := by
  induction v generalizing c u with
  | nil => exact moveEnd_walk hlast hT
  | cons x v ih =>
    have hx := hv x List.mem_cons_self
    have hstep : Walks T
        (ahead (shifting owner side c) u
          (x :: (v ++ Symbol.tapeEnd :: List.replicate n Symbol.blank)))
        (ahead (shifting owner side x) (u ++ [c])
          (v ++ Symbol.tapeEnd :: List.replicate n Symbol.blank)) :=
      Walks.right (by simp) (hT _ (Nat.le_refl _) _ (.relay hc hx))
    have hrest := ih (u := u ++ [c]) hx (fun y hy => hv y (List.mem_cons_of_mem x hy))
      (by simpa using hlast) fun m hm => hT m (by simp at hm; omega)
    simpa using ReflTransGen.head hstep hrest

/-- **A shift inserts one cell and loses nothing.** It ends on the return mark, with everything
right of it one cell further right and the carried symbol next to it. -/
theorem shift_walk (hc : c ∈ a.library) (hv : ∀ x ∈ v, x ∈ a.library)
    (hlast : a.IsEdge ((c :: v).getLast (List.cons_ne_nil c v)))
    (hT : ∀ m, u.length ≤ m → ∀ r, Shifts a owner side resume r → T m r) :
    ReflTransGen (Walks T)
      (ahead (shifting owner side c) (u ++ [Symbol.returnMark])
        (v ++ Symbol.tapeEnd :: List.replicate n Symbol.blank))
      (ahead (comingBack owner side) u (Symbol.returnMark :: c :: (v ++ Symbol.tapeEnd ::
        List.replicate (n - 1) Symbol.blank))) := by
  have hT' : ∀ m, (u ++ [Symbol.returnMark]).length ≤ m → ∀ r, Shifts a owner side resume r →
      T m r :=
    fun m hm => hT m (by simp at hm; omega)
  have hback := walks_back (T := T) (s := comingBack owner side) (t := c :: v)
    (u := u ++ [Symbol.returnMark]) (v := Symbol.tapeEnd :: List.replicate (n - 1) Symbol.blank)
    (by simp) fun m hm x hx => hT' m hm _ (.comeBack (by
      rcases List.mem_cons.mp hx with rfl | hx
      · exact hc
      · exact hv x hx))
  rw [behind_concat] at hback
  exact (relay_walk hc hv hlast hT').trans hback

end OneTape.Table
