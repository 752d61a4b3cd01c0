import OneTape.Proofs.Description.RoundTrip

/-!
# Reading a line on its own

What the grammar reads from a line does not depend on what stands behind the line. Two readers go
along a line, one of the line on its own and one of the line with more text behind it, and find the
same.

The text behind may be the end of the line, or blanks and a comment. `Inert K g` says that texts of
the kind `K` are of this sort, and that the blanks among them do not show once names are read by
`g`: a name reaches up to the comment behind it.

Results:
* `skip_along`, `literal?_along`, `item_along`, `text_along`: the parts of a line.
* `line_along`: a line.
* `inert_atLineEnd`, `inert_trailing`: the two kinds of text.
-/

namespace OneTape.Description

variable {w t rest : List Char} {c d : Cursor} {K : List Char → Prop} {g : String → String}

/-! ## Texts on one line -/

/-- No line ends in the text. -/
def OneLine (cs : List Char) : Prop := ∀ x ∈ cs, isLineEnd x = false

instance (cs : List Char) : Decidable (OneLine cs) :=
  decidable_of_iff (cs.all (!isLineEnd ·) = true) (by simp [OneLine])

theorem isLineEnd_of_isGap {x : Char} (h : isGap x = true) : isLineEnd x = false := by
  by_contra hend
  rw [isGap_of_isLineEnd (by simpa using hend)] at h
  cases h

theorem oneLine_nil : OneLine [] := by simp [OneLine]

theorem atLineEnd_nil : AtLineEnd [] := by simp [AtLineEnd]

theorem OneLine.append (h : OneLine w) (h' : OneLine t) : OneLine (w ++ t) :=
  fun x hx => (List.mem_append.mp hx).elim (h x) (h' x)

theorem oneLine_of_gaps (h : ∀ x ∈ w, isGap x = true) : OneLine w :=
  fun x hx => isLineEnd_of_isGap (h x hx)

/-- A text that is on one line and at its end is over. -/
theorem OneLine.eq_nil (h : OneLine w) (hend : AtLineEnd w) : w = [] := by
  cases w with
  | nil => rfl
  | cons x w =>
    have hx := hend x rfl
    rw [h x List.mem_cons_self] at hx
    cases hx

theorem OneLine.of_suffix (h : OneLine w) (hs : t <:+ w) : OneLine t :=
  fun x hx => h x (hs.subset hx)

/-- What is left of a text when blanks and a comment are skipped. -/
def afterSkip (cs : List Char) : List Char :=
  if commentSign <+: cs.dropWhile isGap then (cs.dropWhile isGap).dropWhile (!isLineEnd ·)
  else cs.dropWhile isGap

theorem skip_rest (c : Cursor) : (skip c).rest = afterSkip c.rest := by
  rw [skip_eq, afterSkip]
  split_ifs <;> simp only [dropWhile_eq]

theorem afterSkip_suffix (cs : List Char) : afterSkip cs <:+ cs := by
  unfold afterSkip
  split_ifs
  · exact (List.dropWhile_suffix _).trans (List.dropWhile_suffix _)
  · exact List.dropWhile_suffix _

theorem afterSkip_nil : afterSkip [] = [] := rfl

theorem afterSkip_of_settled (h : Settled t) : afterSkip t = t := by
  have hskip := congrArg Cursor.rest (skip_of_settled (i := 0) h)
  rwa [skip_rest] at hskip

theorem afterSkip_of_atLineEnd (h : AtLineEnd t) : afterSkip t = t :=
  afterSkip_of_settled (settled_of_atLineEnd h)

theorem OneLine.skip (h : OneLine c.rest) : OneLine (skip c).rest := by
  rw [skip_rest]
  exact h.of_suffix (afterSkip_suffix _)

theorem dropWhile_eq_self {p : Char → Bool} (h : Stops p t) : t.dropWhile p = t := by
  cases t with
  | nil => rfl
  | cons x t => simp [h x rfl]

theorem afterSkip_dropWhile (cs : List Char) : afterSkip (cs.dropWhile isGap) = afterSkip cs := by
  rw [afterSkip, dropWhile_eq_self (stops_dropWhile isGap cs), ← afterSkip]

/-- The text does not go on with a part of a line: a blank follows, or the line is over. -/
def Ends (rest : List Char) : Prop := Stops (fun x => !isGap x && !isLineEnd x) rest

theorem AtLineEnd.ends (h : AtLineEnd rest) : Ends rest := fun x hx => by simp [h x hx]

theorem Ends.stops_item (h : Ends rest) : Stops isItemChar rest := by
  intro x hx
  have hend : (!isGap x && !isLineEnd x) = false := h x hx
  rw [isItemChar, Bool.and_assoc, Bool.and_comm (!isLineEnd x), hend, Bool.and_false]

theorem dropWhile_of_atLineEnd (h : AtLineEnd t) : t.dropWhile (!isLineEnd ·) = t := by
  have hstops : Stops (!isLineEnd ·) t := fun x hx => by simp [h x hx]
  exact dropWhile_eq_self hstops

/-- Skipping that comes to the end of the line skips all of the line. -/
theorem afterSkip_of_over (h : AtLineEnd (afterSkip t)) :
    afterSkip t = t.dropWhile (!isLineEnd ·) := by
  have hgaps : ∀ x ∈ t.takeWhile isGap, (!isLineEnd x) = true := fun x hx => by
    simp [isLineEnd_of_isGap (List.mem_takeWhile_imp hx)]
  have hdrop : t.dropWhile (!isLineEnd ·) = (t.dropWhile isGap).dropWhile (!isLineEnd ·) := by
    conv => lhs; rw [← List.takeWhile_append_dropWhile (p := isGap) (l := t)]
    rw [List.dropWhile_append_of_pos hgaps]
  rw [hdrop]
  unfold afterSkip at h ⊢
  split_ifs at h ⊢ with hcomment
  · rfl
  · exact (dropWhile_of_atLineEnd h).symm

/-- **Skipping does not depend on the text behind a line**, unless it skips all of the line: then it
goes on to the end of this text's first line. -/
theorem afterSkip_append (hw : OneLine w) (hends : Ends t) (hover : AtLineEnd (afterSkip t)) :
    afterSkip (w ++ t) = afterSkip w ++ t ∨
      afterSkip w = [] ∧ afterSkip (w ++ t) = t.dropWhile (!isLineEnd ·) := by
  have hline : OneLine (w.dropWhile isGap) := hw.of_suffix (List.dropWhile_suffix _)
  have happend : (w ++ t).dropWhile isGap =
      if (w.dropWhile isGap).isEmpty then t.dropWhile isGap else w.dropWhile isGap ++ t :=
    List.dropWhile_append
  have hskipped := afterSkip_of_over hover
  unfold afterSkip at hskipped ⊢
  generalize w.dropWhile isGap = r at hline happend ⊢
  by_cases hr : r = []
  · rw [if_pos (by simpa using hr)] at happend
    exact .inr ⟨by simp [hr, commentSign], by rw [happend, hskipped]⟩
  · rw [if_neg (by simpa using hr)] at happend
    have hsign : commentSign <+: r ++ t ↔ commentSign <+: r :=
      ⟨prefix_of_stops (List.all_eq_true.mp rfl) hends, fun h => h.trans (List.prefix_append r t)⟩
    simp only [happend, hsign]
    split_ifs with hcomment
    · -- the comment takes all that is left of the line
      have hall : ∀ x ∈ r, (!isLineEnd x) = true := fun x hx => by simp [hline x hx]
      exact .inr ⟨List.dropWhile_eq_nil_iff.mpr hall, List.dropWhile_append_of_pos hall⟩
    · exact .inl rfl

/-! ## Two readers -/

/-- Texts of the kind `K` can stand behind a line without changing what it says, if names are
compared by `g`. -/
structure Inert (K : List Char → Prop) (g : String → String) : Prop where
  closed : ∀ t, K t → K (t.dropWhile (!isLineEnd ·))
  ends : ∀ t, K t → Ends t
  skipped : ∀ t, K t → AtLineEnd (afterSkip t)
  blanks : ∀ t, K t → ∀ w, g (String.ofList (w ++ t.takeWhile isGap)) = g (String.ofList w)

/-- A reader of a line on its own, and one at the same place of this line with text behind it. -/
structure Along (K : List Char → Prop) (c d : Cursor) : Prop where
  line : OneLine d.rest
  behind : ∃ t, K t ∧ c.rest = d.rest ++ t

/-- The two readers, when the first may also have gone on behind the line. -/
def Beyond (K : List Char → Prop) (c d : Cursor) : Prop :=
  Along K c d ∨ d.rest = [] ∧ K (afterSkip c.rest)

/-- Two trials find the same, as seen by `f`, or both find nothing. -/
def Alike {α β : Type} (f : α → β) (Q : Cursor → Cursor → Prop)
    (x y : Option (α × Cursor)) : Prop :=
  Option.Rel (fun p q => f p.1 = f q.1 ∧ Q p.2 q.2) x y

theorem Alike.eq_none_or_some {α β : Type} {f : α → β} {Q : Cursor → Cursor → Prop}
    {x y : Option (α × Cursor)} (h : Alike f Q x y) : x = none ∧ y = none ∨
      ∃ s e s' e', x = some (s, e) ∧ y = some (s', e') ∧ f s = f s' ∧ Q e e' := by
  cases h with
  | none => exact .inl ⟨rfl, rfl⟩
  | some hboth => exact .inr ⟨_, _, _, _, rfl, rfl, hboth⟩

theorem Along.beyond (h : Along K c d) : Beyond K c d := .inl h

/-- **After skipping, both readers are at the same place.** -/
theorem skip_along (hK : Inert K g) (h : Beyond K c d) : Along K (skip c) (skip d) := by
  have hnil : afterSkip d.rest = [] → K (afterSkip c.rest) → Along K (skip c) (skip d) := by
    intro hd hc
    refine ⟨by simp [skip_rest, hd, OneLine], afterSkip c.rest, hc, ?_⟩
    rw [skip_rest, skip_rest, hd, List.nil_append]
  rcases h with ⟨hline, t, ht, hrest⟩ | ⟨hd, hc⟩
  · rcases afterSkip_append hline (hK.ends t ht) (hK.skipped t ht) with happend | ⟨hd, hc⟩
    · exact ⟨hline.skip, t, ht, by rw [skip_rest, skip_rest, hrest, happend]⟩
    · refine hnil hd ?_
      rw [hrest, hc]
      exact hK.closed t ht
  · exact hnil (by rw [hd, afterSkip_nil]) hc

/-- Both readers go on by the same number of characters of the line. -/
theorem Along.drop (h : Along K c d) {n : Nat} (hn : n ≤ d.rest.length) :
    Along K (c.drop n) (d.drop n) := by
  obtain ⟨hline, t, ht, hrest⟩ := h
  refine ⟨hline.of_suffix (List.drop_suffix n _), t, ht, ?_⟩
  rw [Cursor.drop, Cursor.drop, hrest, List.drop_append_of_le_length hn]

theorem literal?_along (hK : Inert K g) (h : Along K c d) (word : String)
    (hword : ∀ x ∈ word.toList, (!isGap x && !isLineEnd x) = true) :
    Option.Rel (Along K) (c.literal? word) (d.literal? word) := by
  obtain ⟨t, ht, hrest⟩ := h.behind
  have hiff : word.toList <+: c.rest ↔ word.toList <+: d.rest := by
    rw [hrest]
    exact ⟨prefix_of_stops hword (hK.ends t ht), fun hp => hp.trans (List.prefix_append _ _)⟩
  unfold Cursor.literal?
  simp only [List.isPrefixOf_iff_prefix, hiff]
  split_ifs with hp
  · exact .some (h.drop hp.length_le)
  · exact .none

theorem item_along (hK : Inert K g) (h : Along K c d) :
    Alike id (Along K) (item c).found (item d).found := by
  obtain ⟨t, ht, hrest⟩ := h.behind
  have htake : c.rest.takeWhile isItemChar = d.rest.takeWhile isItemChar := by
    have hsplit := List.takeWhile_append_dropWhile (p := isItemChar) (l := d.rest)
    have hstops : Stops isItemChar (d.rest.dropWhile isItemChar ++ t) := by
      intro x hx
      cases hd : d.rest.dropWhile isItemChar with
      | nil => exact (hK.ends t ht).stops_item x (by simpa [hd] using hx)
      | cons y r => exact stops_dropWhile isItemChar d.rest x (by simpa [hd] using hx)
    rw [hrest, ← hsplit, List.append_assoc,
      takeWhile_append_of_stops (fun x hx => List.mem_takeWhile_imp hx) hstops, hsplit]
  simp only [item, Trial.named, htake]
  split_ifs with hempty
  · exact .none
  · exact .some ⟨rfl, h.drop (List.takeWhile_prefix _).length_le⟩

/-! ## Names -/

theorem textLength_gaps {gaps : List Char} (hgaps : ∀ x ∈ gaps, isGap x = true)
    (hrest : commentSign <+: rest ∨ AtLineEnd rest) (n : Nat) :
    textLength (gaps ++ rest) n = n + gaps.length := by
  induction gaps generalizing n with
  | nil =>
    cases rest with
    | nil => rfl
    | cons x rest =>
      rcases hrest with hcomment | hend
      · obtain ⟨rfl, t, rfl⟩ := List.cons_prefix_cons.mp hcomment
        rfl
      · simp [textLength, hend x rfl]
  | cons x gaps ih =>
    have hx : isGap x = true := hgaps x List.mem_cons_self
    have hslash : x ≠ '/' := by
      rintro rfl
      cases hx
    have hline : isLineEnd x = false := isLineEnd_of_isGap hx
    rw [List.cons_append, textLength, if_neg (by simp [hline, hslash]),
      ih (fun y hy => hgaps y (List.mem_cons_of_mem x hy)), List.length_cons]
    omega

/-- Behind blanks that end a line there is a comment or the line end. -/
theorem comment_or_atLineEnd (hover : AtLineEnd (afterSkip t)) :
    commentSign <+: t.dropWhile isGap ∨ AtLineEnd (t.dropWhile isGap) := by
  unfold afterSkip at hover
  split_ifs at hover with h
  · exact .inl h
  · exact .inr hover

/-- A name that reaches to the end of its line goes on over the blanks behind it; any other ends
where it ends on its own. -/
theorem textLength_along (hw : OneLine w) (hends : Ends t) (hover : AtLineEnd (afterSkip t))
    (n : Nat) :
    textLength w n = n + w.length ∧ textLength (w ++ t) n =
      n + w.length + (t.takeWhile isGap).length ∨
      textLength w n < n + w.length ∧ textLength (w ++ t) n = textLength w n := by
  induction w generalizing n with
  | nil =>
    have hgaps : ∀ x ∈ t.takeWhile isGap, isGap x = true := fun x hx => List.mem_takeWhile_imp hx
    have hlen := textLength_gaps hgaps (comment_or_atLineEnd hover) n
    rw [List.takeWhile_append_dropWhile] at hlen
    exact .inl ⟨rfl, hlen⟩
  | cons x w ih =>
    have hhead : (w ++ t).head? = some '/' ↔ w.head? = some '/' := by
      cases w with
      | nil =>
        have hslash : t.head? ≠ some '/' := fun h => absurd (hends '/' h) (by decide)
        simpa using hslash
      | cons y w => rfl
    rw [List.cons_append, textLength, textLength]
    simp only [hhead]
    split_ifs with hstop
    · right
      simp
    · have hrest := ih (hw.of_suffix (List.suffix_cons x w)) (n + 1)
      rw [List.length_cons]
      omega

/-- **The name read from a line**, up to the blanks behind it. -/
theorem text_along (hK : Inert K g) (h : Along K c d) :
    Alike g (Beyond K) ((text c).optional "" c).found ((text d).optional "" d).found := by
  obtain ⟨t, ht, hrest⟩ := h.behind
  have hfound : ∀ e : Cursor, ((text e).optional "" e).found =
      some (String.ofList (e.rest.take (textLength e.rest 0)), e.drop (textLength e.rest 0)) := by
    intro e
    simp only [Trial.optional, text, Trial.named]
    split_ifs with hzero
    · simp [Trial.nothing, hzero, Cursor.drop]
    · simp [Trial.read]
  rw [hfound, hfound]
  refine .some ?_
  rcases textLength_along h.line (hK.ends t ht) (hK.skipped t ht) 0 with ⟨hd, hc⟩ | ⟨hd, hc⟩
  · rw [Nat.zero_add] at hd hc
    rw [hrest, hd, hc]
    have htake : (d.rest ++ t).take (d.rest.length + (t.takeWhile isGap).length) =
        d.rest ++ t.takeWhile isGap := by
      rw [List.take_length_add_append, ← List.prefix_iff_eq_take.mp (List.takeWhile_prefix _)]
    have hdrop : (c.drop (d.rest.length + (t.takeWhile isGap).length)).rest = t.dropWhile
        isGap := by
      rw [Cursor.drop, hrest, List.drop_length_add_append, drop_length_takeWhile]
    refine ⟨?_, .inr ⟨by simp [Cursor.drop], ?_⟩⟩
    · rw [htake, List.take_length]
      exact hK.blanks t ht d.rest
    · rw [hdrop, afterSkip_dropWhile, afterSkip_of_over (hK.skipped t ht)]
      exact hK.closed t ht
  · rw [hrest, hc, List.take_append_of_le_length (by omega)]
    exact ⟨rfl, (h.drop (by omega)).beyond⟩

/-! ## Items -/

theorem commaItem_along (hK : Inert K g) (h : Along K c d) :
    Alike id (Along K) (commaItem c).found (commaItem d).found := by
  have hcomma := literal?_along hK h "," (List.all_eq_true.mp rfl)
  unfold commaItem
  generalize c.literal? "," = x at hcomma
  generalize d.literal? "," = y at hcomma
  cases hcomma with
  | none => exact .none
  | some hbehind => exact item_along hK (skip_along hK hbehind.beyond)

theorem moreItems_along (hK : Inert K g) (h : Along K c d) (before : List String) :
    Alike id (Along K) (moreItems c before).found (moreItems d before).found := by
  induction hn : d.rest.length using Nat.strong_induction_on generalizing c d before with
  | _ n ih =>
    have hnext := commaItem_along hK (skip_along hK h.beyond)
    rcases hnext.eq_none_or_some with ⟨hc, hd⟩ | ⟨s, e, s', e', hc, hd, hs, hbehind⟩
    · rw [moreItems_of_none hc, moreItems_of_none hd]
      exact .some ⟨rfl, h⟩
    · obtain rfl : s = s' := hs
      rw [moreItems_of_some hc, moreItems_of_some hd]
      have hlt := commaItem_rest_length_lt hd
      have hle := skip_rest_length_le d
      exact ih _ (by omega) hbehind (s :: before) rfl

theorem items_along (hK : Inert K g) (h : Along K c d) :
    Alike id (Along K) (items c).found (items d).found := by
  unfold items
  rcases (item_along hK h).eq_none_or_some with ⟨hc, hd⟩ | ⟨s, e, s', e', hc, hd, hs, hbehind⟩
  · simp only [hc, hd]
    exact .none
  · obtain rfl : s = s' := hs
    have hskip := skip_along hK hbehind.beyond
    rcases (commaItem_along hK hskip).eq_none_or_some with
      ⟨hc', hd'⟩ | ⟨t, b, t', b', hc', hd', ht, hnext⟩
    · simp only [hc, hd, hc', hd']
      exact .some ⟨rfl, hskip⟩
    · obtain rfl : t = t' := ht
      simp only [hc, hd, hc', hd']
      exact moreItems_along hK hnext [t, s]

/-! ## Lines -/

/-- What a line says, with names seen by `g`. -/
def Content.mapName (g : String → String) : Content → Content
  | .name text => .name (g text)
  | content => content

/-- What a line that was read says, with names seen by `g`. -/
def Node.said (g : String → String) (n : Node) : Content := n.content.mapName g

theorem keyword?_along (hK : Inert K g) (h : Along K c d) {word : String}
    (hword : ∀ x ∈ word.toList, isItemChar x = true) :
    Option.Rel (Along K) (keyword? word c) (keyword? word d) := by
  have hchars : ∀ x ∈ word.toList, (!isGap x && !isLineEnd x) = true := fun x hx => by
    simp [isGap_of_isItemChar (hword x hx), isLineEnd_of_isItemChar (hword x hx)]
  have hletters := literal?_along hK h word hchars
  unfold keyword?
  generalize c.literal? word = x at hletters
  generalize d.literal? word = y at hletters
  cases hletters with
  | none => exact .none
  | @some c₁ d₁ hbehind =>
    have hcolon := literal?_along hK (skip_along hK hbehind.beyond) ":" (List.all_eq_true.mp rfl)
    simp only [Option.bind_eq_bind, Option.bind_some]
    generalize (skip c₁).literal? ":" = x at hcolon
    generalize (skip d₁).literal? ":" = y at hcolon
    cases hcolon with
    | none => exact .none
    | some hnext => exact .some (skip_along hK hnext.beyond)

theorem Alike.node {α β : Type} {f : α → β} {t u : Trial α} {content : α → Content}
    {start start' : Nat} {Q : Cursor → Cursor → Prop} (h : Alike f Q t.found u.found)
    (hQ : ∀ c d, Q c d → Beyond K c d)
    (hsaid : ∀ x y, f x = f y → (content x).mapName g = (content y).mapName g) :
    Alike (Node.said g) (Beyond K) (t.node start content).found (u.node start' content).found := by
  rcases h.eq_none_or_some with ⟨ht, hu⟩ | ⟨x, e, y, e', ht, hu, hxy, hbehind⟩
  · simp only [Trial.node, ht, hu]
    exact .none
  · rw [node_found ht, node_found hu]
    exact .some ⟨hsaid x y hxy, hQ _ _ hbehind⟩

theorem Alike.optional {α β : Type} {f : α → β} {t u : Trial α} {x : α} {Q : Cursor → Cursor → Prop}
    (h : Alike f Q t.found u.found) (hcd : Q c d) :
    Alike f Q (t.optional x c).found (u.optional x d).found := by
  rcases h.eq_none_or_some with ⟨ht, hu⟩ | ⟨y, e, y', e', ht, hu, hy, hbehind⟩
  · simp only [Trial.optional, ht, hu]
    exact .some ⟨rfl, hcd⟩
  · simp only [Trial.optional, ht, hu]
    exact .some ⟨hy, hbehind⟩

theorem Alike.or {α β : Type} {f : α → β} {Q : Cursor → Cursor → Prop}
    {x y x' y' : Option (α × Cursor)} (h : Alike f Q x y) (h' : Alike f Q x' y') :
    Alike f Q (x.or x') (y.or y') := by
  cases h with
  | none => exact h'
  | some hboth => exact .some hboth

/-- A header that was read behind its keyword. -/
theorem Alike.header (hK : Inert K g) (h : Along K c d) (word : String)
    (hword : word ∈ ["name", "init", "accept"]) (body : Nat → Cursor → Option (Node × Cursor))
    (hbody : ∀ i j c d, Along K c d → Alike (Node.said g) (Beyond K) (body i c) (body j d)) :
    Alike (Node.said g) (Beyond K) ((keyword? word c).bind (body c.pos))
      ((keyword? word d).bind (body d.pos)) := by
  have hkey := keyword?_along hK h (keyword_chars word hword)
  generalize keyword? word c = x at hkey
  generalize keyword? word d = y at hkey
  cases hkey with
  | none => exact .none
  | some hbehind => exact hbody _ _ _ _ hbehind

/-- **A line says the same on its own and with text behind it.** -/
theorem line_along (hK : Inert K g) (h : Along K c d) :
    Alike (Node.said g) (Beyond K) (line c).found (line d).found := by
  have hname : Alike (Node.said g) (Beyond K) (nameLine c).found (nameLine d).found := by
    rw [nameLine_found, nameLine_found]
    refine Alike.header hK h "name" (by simp)
      (fun i b => (((text b).optional "" b).node i .name).found) fun i j c d hcd => ?_
    exact (text_along hK hcd).node (fun _ _ => id) fun x y hxy => congrArg Content.name hxy
  have hinit : Alike (Node.said g) (Beyond K) (initLine c).found (initLine d).found := by
    rw [initLine_found, initLine_found]
    refine Alike.header hK h "init" (by simp) (fun i b => ((item b).node i .init).found)
      fun i j c d hcd => ?_
    exact (item_along hK hcd).node (fun _ _ => Along.beyond)
      fun x y hxy => congrArg Content.init hxy
  have haccept : Alike (Node.said g) (Beyond K) (acceptLine c).found (acceptLine d).found := by
    rw [acceptLine_found, acceptLine_found]
    refine Alike.header hK h "accept" (by simp)
      (fun i b => (((items b).optional [] b).node i .accept).found) fun i j c d hcd => ?_
    exact ((items_along hK hcd).optional hcd).node (fun _ _ => Along.beyond)
      fun x y hxy => congrArg Content.accept hxy
  have hrow : Alike (Node.said g) (Beyond K) (rowLine c).found (rowLine d).found := by
    rw [rowLine_found, rowLine_found]
    exact (items_along hK h).node (fun _ _ => Along.beyond) fun x y hxy => congrArg Content.row hxy
  rw [line_found, line_found]
  exact hname.or (hinit.or (haccept.or hrow))

/-! ## Two kinds of text behind a line -/

/-- Whatever follows the end of a line changes nothing about the line. -/
theorem inert_atLineEnd (hrest : AtLineEnd rest) (g : String → String) : Inert (· = rest) g where
  closed := by
    rintro t rfl
    exact dropWhile_of_atLineEnd hrest
  ends := by
    rintro t rfl
    exact hrest.ends
  skipped := by
    rintro t rfl
    rwa [afterSkip_of_atLineEnd hrest]
  blanks := by
    rintro t rfl w
    have hstops : Stops isGap t := fun x hx => isGap_of_isLineEnd (hrest x hx)
    have hnil : t.takeWhile isGap = [] := takeWhile_append_of_stops (w := []) (by simp) hstops
    rw [hnil, List.append_nil]

/-- Behind the line there are only blanks and a comment up to its end. -/
structure Trailing (rest : List Char) : Prop where
  ends : Ends rest
  skipped : AtLineEnd (afterSkip rest)

/-- A name as it is taken from its line. -/
def trimmed (s : String) : String := String.ofList (Text.trim s.toList)

theorem trim_append_gaps {gaps : List Char} (h : ∀ x ∈ gaps, isGap x = true) (w : List Char) :
    Text.trim (w ++ gaps) = Text.trim w := by
  have hspace : ∀ x ∈ gaps, Text.isSpace x = true := fun x hx => isSpace_of_isGap (h x hx)
  have hback : ∀ v : List Char, ((v ++ gaps).reverse.dropWhile Text.isSpace).reverse =
      (v.reverse.dropWhile Text.isSpace).reverse := by
    intro v
    rw [List.reverse_append, List.dropWhile_append_of_pos
      fun x hx => hspace x (List.mem_reverse.mp hx)]
  rw [Text.trim, Text.trim, List.dropWhile_append]
  split_ifs with hempty
  · have hnil : w.dropWhile Text.isSpace = [] := by simpa using hempty
    rw [hnil, List.dropWhile_eq_nil_iff.mpr hspace]
  · exact hback _

/-- Blanks and a comment change nothing about a line whose name is trimmed. -/
theorem inert_trailing : Inert Trailing trimmed where
  closed t _ := by
    have hend := atLineEnd_dropWhile t
    exact ⟨hend.ends, by rwa [afterSkip_of_atLineEnd hend]⟩
  ends _ ht := ht.ends
  skipped _ ht := ht.skipped
  blanks t _ w := by
    have hgaps : ∀ x ∈ t.takeWhile isGap, isGap x = true := fun x hx => List.mem_takeWhile_imp hx
    simp only [trimmed, String.toList_ofList, trim_append_gaps hgaps w]

end OneTape.Description
