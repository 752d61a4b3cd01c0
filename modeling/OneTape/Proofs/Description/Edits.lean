import Mathlib.Algebra.Order.Group.Multiset
import Mathlib.Data.Multiset.UnionInter
import OneTape.Proofs.Description.Pieces

/-!
# Edits that keep the machine

What a description describes depends on its headers, in whatever order, and on its rows in their
order. So its lines can be edited: empty lines and comments may be put in, line ends may be changed,
and headers may be moved.

Results:
* `parse_of_gist`: texts with the same headers and the same rows describe the same machine.
* `said_of_hasLines`: the kinds of line end do not matter.
* `gist_of_edit`: what an edit keeps.
* `parse_line_by_line`: a text is read line by line, and edits of its lines keep the machine.
-/

namespace OneTape.Description

variable {T w : List Char} {C : List Content} {nodes : List Node} {p p' q : Parts} {n : Node}
  {m : Machine}

/-! ## Headers and rows -/

namespace Content

/-- Whether a line is a header. -/
def isHeader : Content → Bool
  | row _ => false
  | _ => true

/-- Which header a line is. -/
def kind : Content → Nat
  | name _ => 0
  | init _ => 1
  | accept _ => 2
  | row _ => 3

end Content

theorem Content.mapName_row (g : String → String) (items : List String) :
    (row items).mapName g = row items := rfl

/-- All that counts of some lines: the headers in any order, and the rows in their order. -/
def gist (C : List Content) : Multiset Content × List Content :=
  (↑(C.filter Content.isHeader), C.filter (!Content.isHeader ·))

theorem gist_append (C D : List Content) :
    gist (C ++ D) = ((gist C).1 + (gist D).1, (gist C).2 ++ (gist D).2) := by
  simp [gist]

theorem gist_header {c : Content} (h : c.isHeader = true) : gist [c] = ({c}, []) := by
  simp [gist, h]

theorem gist_row (items : List String) : gist [.row items] = (0, [.row items]) := by
  simp [gist, Content.isHeader]

/-- A header that may have been met, as a line. -/
def headerOf {α : Type} (content : α → Content) (x : Option α) : Multiset Content :=
  ↑(x.map content).toList

/-- The headers met so far. -/
def Parts.headers (p : Parts) : Multiset Content :=
  headerOf .name p.name + headerOf .init p.init + headerOf .accept p.accept

/-- The headers and rows met so far are those of some lines. -/
structure Parts.Shows (p : Parts) (C : List Content) : Prop where
  headers : p.headers = (gist C).1
  rows : p.rows.reverse.map (fun row => Content.row row.1) = (gist C).2

theorem headerOf_none {α : Type} (content : α → Content) : headerOf content none = 0 := rfl

theorem headerOf_some {α : Type} (content : α → Content) (x : α) :
    headerOf content (some x) = {content x} := rfl

theorem mem_headerOf {α : Type} {content : α → Content} {x : Option α} {c : Content} :
    c ∈ headerOf content x ↔ ∃ y, x = some y ∧ content y = c := by
  simp [headerOf]

theorem Parts.nodup_kinds (p : Parts) : (p.headers.map Content.kind).Nodup := by
  obtain ⟨name, init, accept, rows⟩ := p
  cases name <;> cases init <;> cases accept <;> simp [Parts.headers, headerOf, Content.kind]

theorem Parts.mem_headers {c : Content} : c ∈ p.headers ↔
    (∃ s, p.name = some s ∧ .name s = c) ∨ (∃ s, p.init = some s ∧ .init s = c) ∨
      ∃ ss, p.accept = some ss ∧ .accept ss = c := by
  rw [Parts.headers, Multiset.mem_add, Multiset.mem_add, mem_headerOf, mem_headerOf, mem_headerOf,
    or_assoc]

/-- A line is taken unless its header has been met. -/
theorem Parts.add_of_fresh (h : ∀ c ∈ p.headers, c.kind ≠ n.content.kind) :
    ∃ p', p.add n = .ok p' := by
  unfold Parts.add
  cases hc : n.content with
  | name text =>
    cases hname : p.name with
    | none => exact ⟨_, rfl⟩
    | some s => exact absurd (by rw [hc]; rfl) (h _ (Parts.mem_headers.mpr (.inl ⟨s, hname, rfl⟩)))
  | init state =>
    cases hinit : p.init with
    | none => exact ⟨_, rfl⟩
    | some s =>
      exact absurd (by rw [hc]; rfl) (h _ (Parts.mem_headers.mpr (.inr (.inl ⟨s, hinit, rfl⟩))))
  | accept states =>
    cases haccept : p.accept with
    | none => exact ⟨_, rfl⟩
    | some s =>
      exact absurd (by rw [hc]; rfl) (h _ (Parts.mem_headers.mpr (.inr (.inr ⟨s, haccept, rfl⟩))))
  | row items => exact ⟨_, rfl⟩

/-- A header that is met joins those met before. -/
theorem Parts.Shows.add_header {c : Content} (hp : p.Shows C) (hc : c.isHeader = true)
    (hheaders : p'.headers = p.headers + {c}) (hrows : p'.rows = p.rows) : p'.Shows (C ++ [c]) := by
  refine ⟨?_, ?_⟩
  · rw [hheaders, hp.headers, gist_append, gist_header hc]
  · rw [hrows, hp.rows, gist_append, gist_header hc, List.append_nil]

/-- One more line adds its header or its row. -/
theorem Parts.Shows.add (hp : p.Shows C) (h : p.add n = .ok p') :
    p'.Shows (C ++ [n.said trimmed]) := by
  unfold Parts.add at h
  unfold Node.said
  cases hc : n.content with
  | name text =>
    simp only [hc] at h
    split_ifs at h with hsome
    obtain rfl := Except.ok.inj h
    have hnone : p.name = none := by simpa using hsome
    refine hp.add_header rfl ?_ rfl
    simp only [Parts.headers, hnone, headerOf_none, headerOf_some, zero_add]
    ac_rfl
  | init state =>
    simp only [hc] at h
    split_ifs at h with hsome
    obtain rfl := Except.ok.inj h
    have hnone : p.init = none := by simpa using hsome
    refine hp.add_header rfl ?_ rfl
    simp only [Parts.headers, hnone, headerOf_none, headerOf_some, add_zero]
    ac_rfl
  | accept states =>
    simp only [hc] at h
    split_ifs at h with hsome
    obtain rfl := Except.ok.inj h
    have hnone : p.accept = none := by simpa using hsome
    refine hp.add_header rfl ?_ rfl
    simp only [Parts.headers, hnone, headerOf_none, headerOf_some, add_zero]
    rfl
  | row items =>
    simp only [hc] at h
    obtain rfl := Except.ok.inj h
    refine ⟨?_, ?_⟩
    · rw [gist_append, Content.mapName_row, gist_row, ← hp.headers, add_zero]
      rfl
    · rw [gist_append, Content.mapName_row, gist_row, ← hp.rows]
      simp

theorem Parts.Shows.foldlM (hp : p.Shows C) (h : nodes.foldlM Parts.add p = .ok p') :
    p'.Shows (C ++ nodes.map (Node.said trimmed)) := by
  induction nodes generalizing p C with
  | nil =>
    obtain rfl := Except.ok.inj h
    simpa using hp
  | cons n nodes ih =>
    rw [List.foldlM_cons] at h
    obtain ⟨p₁, h₁, h₂⟩ := except_bind_eq_ok_iff.mp h
    simpa using ih (hp.add h₁) h₂

theorem kind_said (n : Node) (g : String → String) : (n.said g).kind = n.content.kind := by
  unfold Node.said
  cases n.content <;> rfl

theorem isHeader_said (h : n.content.isHeader = true) (g : String → String) :
    (n.said g).isHeader = true := by
  unfold Node.said
  cases hc : n.content with
  | row items => rw [hc] at h; cases h
  | name | init | accept => rfl

theorem Parts.isHeader_of_mem {c : Content} (h : c ∈ p.headers) : c.isHeader = true := by
  rcases Parts.mem_headers.mp h with ⟨_, _, rfl⟩ | ⟨_, _, rfl⟩ | ⟨_, _, rfl⟩ <;> rfl

theorem isHeader_of_kind {c c' : Content} (hc : c.isHeader = true) (h : c.kind = c'.kind) :
    c'.isHeader = true := by
  cases c' with
  | row items => cases c <;> simp_all [Content.kind, Content.isHeader]
  | name | init | accept => rfl

/-- Lines whose headers could have been met are taken. -/
theorem Parts.Shows.foldlM_eq_ok (hp : p.Shows C)
    (hq : q.headers = (gist (C ++ nodes.map (Node.said trimmed))).1) :
    ∃ p', nodes.foldlM Parts.add p = .ok p' := by
  induction nodes generalizing p C with
  | nil => exact ⟨p, rfl⟩
  | cons n nodes ih =>
    have hfresh : ∀ c ∈ p.headers, c.kind ≠ n.content.kind := by
      intro c hc heq
      rw [← kind_said n trimmed] at heq
      -- the two lines would be headers of one kind among the headers of `q`
      have hheader : (n.said trimmed).isHeader = true :=
        isHeader_of_kind (Parts.isHeader_of_mem hc) heq
      have hnodup := q.nodup_kinds
      rw [hq, gist_append, ← hp.headers, Multiset.map_add] at hnodup
      have hmem : n.said trimmed ∈ (gist ((n :: nodes).map (Node.said trimmed))).1 := by
        simp [gist, hheader]
      exact Multiset.disjoint_left.mp (Multiset.disjoint_of_nodup_add hnodup)
        (Multiset.mem_map_of_mem _ hc) (heq ▸ Multiset.mem_map_of_mem _ hmem)
    obtain ⟨p₁, h₁⟩ := Parts.add_of_fresh hfresh
    obtain ⟨p', h'⟩ := ih (hp.add h₁) (by simpa using hq)
    refine ⟨p', ?_⟩
    rw [List.foldlM_cons, h₁]
    exact h'

theorem Parts.eq_of_headers (h : p.headers = q.headers) :
    p.name = q.name ∧ p.init = q.init ∧ p.accept = q.accept := by
  have hmem : ∀ c, c ∈ p.headers ↔ c ∈ q.headers := fun c => by rw [h]
  simp only [Parts.mem_headers] at hmem
  refine ⟨Option.ext fun s => ?_, Option.ext fun s => ?_, Option.ext fun ss => ?_⟩
  · simpa using hmem (.name s)
  · simpa using hmem (.init s)
  · simpa using hmem (.accept ss)

/-! ## Machines -/

theorem rule_of_fst {domain range domain' range' : List String × Span} {r : Rule}
    (h : rule domain range = .ok r) (hdomain : domain.1 = domain'.1) (hrange : range.1 = range'.1) :
    rule domain' range' = .ok r := by
  unfold rule at h ⊢
  rw [← hdomain, ← hrange]
  dsimp only at h ⊢
  split_ifs at h ⊢
  cases hd : directions (range.1.drop (1 + (domain.1.length - 1))) with
  | error token => rw [hd] at h; cases h
  | ok moves => rw [hd] at h; exact h

/-- Where the rows stand in the text makes no difference to their rules. -/
theorem rules_of_fst {rows rows' : List (List String × Span)} {found rs : List Rule}
    (h : rules rows found = .ok rs) (hrows : rows.map Prod.fst = rows'.map Prod.fst) :
    rules rows' found = .ok rs := by
  fun_induction rules rows found generalizing rows' with
  | case1 found =>
    obtain rfl : rows' = [] := by simpa using hrows.symm
    exact h
  | case2 => cases h
  | case3 => cases h
  | case4 domain range rows found r hr ih =>
    obtain ⟨domain', _, rfl, hdomain, htail⟩ := List.map_eq_cons_iff.mp hrows.symm
    obtain ⟨range', rows', rfl, hrange, hrest⟩ := List.map_eq_cons_iff.mp htail
    rw [rules, rule_of_fst hr hdomain.symm hrange.symm]
    exact ih h hrest.symm

theorem Parts.ofNodes_eq_ok_iff : Parts.ofNodes nodes = .ok p ↔
    nodes.foldlM Parts.add {} = .ok { p with rows := p.rows.reverse } := by
  unfold Parts.ofNodes
  cases nodes.foldlM Parts.add {} with
  | error fault => simp [Except.map]
  | ok p' =>
    obtain ⟨name, init, accept, rows⟩ := p'
    obtain ⟨name', init', accept', rows'⟩ := p
    simp [Except.map, List.reverse_eq_iff]

/-- **Texts with the same headers and the same rows describe the same machine.** -/
theorem parse_of_gist {text text' : String} (h : parse text = .ok m)
    (hgist : (said trimmed text.toList).map gist = (said trimmed text'.toList).map gist) :
    parse text' = .ok m := by
  obtain ⟨nodes, hnodes, hm, hana⟩ := parse_eq_ok_iff.mp h
  obtain ⟨p, hp, hname, hinit, hne, haccept, hrules⟩ := machineOf_eq_ok hm
  -- the other text has lines with the same headers and rows
  rw [said_eq_some_iff.mpr ⟨nodes, hnodes, rfl⟩, Option.map_some] at hgist
  obtain ⟨C, hC, hsame⟩ := Option.map_eq_some_iff.mp hgist.symm
  obtain ⟨nodes', hnodes', rfl⟩ := said_eq_some_iff.mp hC
  have hempty : ({} : Parts).Shows [] := ⟨rfl, rfl⟩
  have hshows := hempty.foldlM (Parts.ofNodes_eq_ok_iff.mp hp)
  -- its lines are taken as well, and make the same parts
  have hheaders : p.headers = (gist ([] ++ nodes'.map (Node.said trimmed))).1 :=
    hshows.headers.trans (congrArg Prod.fst hsame.symm)
  obtain ⟨p', hp'⟩ := hempty.foldlM_eq_ok hheaders
  have hshows' := hempty.foldlM hp'
  obtain ⟨hname', hinit', haccept'⟩ := Parts.eq_of_headers
    ((hshows'.headers.trans (congrArg Prod.fst hsame)).trans hshows.headers.symm)
  have hrows : p.rows.map Prod.fst = p'.rows.reverse.map Prod.fst := by
    have hall := hshows.rows.trans ((congrArg Prod.snd hsame).symm.trans hshows'.rows.symm)
    have hinj : Function.Injective Content.row := fun _ _ heq => Content.row.inj heq
    refine List.map_injective_iff.mpr hinj ?_
    rw [List.map_map, List.map_map]
    rw [List.reverse_reverse] at hall
    exact hall
  refine parse_eq_ok_iff.mpr ⟨nodes', hnodes', ?_, hana⟩
  refine machineOf_of_parts (p := { p' with rows := p'.rows.reverse }) _
    (Parts.ofNodes_eq_ok_iff.mpr ?_) (hname'.trans hname) (hinit'.trans hinit) hne ?_
    (rules_of_fst hrules hrows)
  · simpa using hp'
  · show m.accept = p'.accept.getD []
    rw [haccept', haccept]

/-! ## Line ends -/

/-- The ways to end a line. -/
def terminators : List (List Char) := [['\n'], ['\r', '\n'], ['\r']]

/-- The text consists of these lines, each but the last with some line end behind it. -/
inductive HasLines : List (List Char) → List Char → Prop
  | last {w : List Char} : OneLine w → HasLines [w] w
  | cons {w t : List Char} {ws : List (List Char)} {T : List Char} :
      OneLine w → t ∈ terminators → HasLines ws T → HasLines (w :: ws) (w ++ (t ++ T))

theorem isLineEnd_of_mem_terminators {t : List Char} (ht : t ∈ terminators) :
    ∃ x s, t = x :: s ∧ isLineEnd x = true ∧ (s = [] ∨ ∃ y, s = [y] ∧ isLineEnd y = true) := by
  simp only [terminators, List.mem_cons, List.not_mem_nil, or_false] at ht
  rcases ht with rfl | rfl | rfl
  · exact ⟨_, _, rfl, rfl, .inl rfl⟩
  · exact ⟨_, _, rfl, rfl, .inr ⟨_, rfl, rfl⟩⟩
  · exact ⟨_, _, rfl, rfl, .inl rfl⟩

theorem said_nil (g : String → String) : said g [] = some [] := by
  rw [said_of_oneLine oneLine_nil]
  rfl

/-- **The kinds of line end make no difference.** -/
theorem said_of_hasLines {g : String → String} {ws : List (List Char)} (h : HasLines ws T) :
    said g T = saidAll g ws := by
  induction h with
  | last => rw [saidAll_singleton]
  | @cons w t ws T hw ht _ ih =>
    obtain ⟨x, s, rfl, hx, rfl | ⟨y, rfl, hy⟩⟩ := isLineEnd_of_mem_terminators ht
    · rw [saidAll, ← ih]
      exact said_cut hw hx T
    · -- between the two characters of a line end there is an empty piece
      have hempty : said g (y :: T) = said g T := by
        have hcut := said_cut (g := g) oneLine_nil hy T
        rw [said_nil] at hcut
        exact hcut.trans (by cases said g T <;> simp)
      rw [saidAll, ← ih, ← hempty]
      exact said_cut hw hx (y :: T)

/-- Every text consists of its pieces. -/
theorem hasLines_pieces (T : List Char) : HasLines (pieces T) T := by
  induction T using cutInduction with
  | last w hw =>
    rw [pieces_of_oneLine hw]
    exact .last hw
  | cut w x T hw hx ih =>
    rw [pieces_cut hw hx]
    refine .cons (t := [x]) hw ?_ ih
    simp only [isLineEnd, Bool.or_eq_true, decide_eq_true_eq] at hx
    rcases hx with rfl | rfl <;> simp [terminators]

/-! ## Edits -/

/-- Blanks, possibly with a comment behind them. -/
inductive Silent : List Char → Prop
  | blank (gaps : List Char) : (∀ x ∈ gaps, isGap x = true) → Silent gaps
  | comment (gaps note : List Char) : (∀ x ∈ gaps, isGap x = true) → OneLine note →
      Silent (gaps ++ (commentSign ++ note))

/-- A line that is read as a header. -/
def IsHeaderLine (w : List Char) : Prop := ∃ n, machine w = .ok [n] ∧ n.content.isHeader = true

/-- Changes of the lines of a description that can be made without changing what it describes. -/
inductive Edit : List (List Char) → List (List Char) → Prop
  /-- A line with nothing but blanks or a comment is put in anywhere. -/
  | insert (above below : List (List Char)) {w : List Char} : Silent w →
      Edit (above ++ below) (above ++ w :: below)
  /-- A comment is put at the end of a line, behind a blank. -/
  | remark (above below : List (List Char)) (w : List Char) (gap : Char) (note : List Char) :
    OneLine w →
      isGap gap = true → OneLine note →
      Edit (above ++ w :: below) (above ++ (w ++ gap :: (commentSign ++ note)) :: below)
  /-- A header moves down over some lines. -/
  | move (above between below : List (List Char)) {w : List Char} : IsHeaderLine w →
      Edit (above ++ w :: (between ++ below)) (above ++ (between ++ w :: below))

theorem oneLine_commentSign : OneLine commentSign := by simp [OneLine, commentSign, isLineEnd]

theorem afterSkip_comment {gaps note : List Char} (hgaps : ∀ x ∈ gaps, isGap x = true)
    (hnote : OneLine note) :
    afterSkip (gaps ++ (commentSign ++ note)) = [] := by
  have hdrop : (gaps ++ (commentSign ++ note)).dropWhile isGap = commentSign ++ note :=
    List.dropWhile_append_of_pos hgaps
  have hline : ∀ x ∈ commentSign ++ note, (!isLineEnd x) = true := fun x hx => by
    simp [oneLine_commentSign.append hnote x hx]
  rw [afterSkip, hdrop, if_pos (List.prefix_append ..)]
  exact List.dropWhile_eq_nil_iff.mpr hline

theorem Silent.afterSkip_eq (h : Silent w) : afterSkip w = [] := by
  cases h with
  | blank _ hgaps =>
    have hdrop : w.dropWhile isGap = [] := List.dropWhile_eq_nil_iff.mpr hgaps
    simp [afterSkip, hdrop]
  | comment _ _ hgaps hnote => exact afterSkip_comment hgaps hnote

theorem Silent.oneLine (h : Silent w) : OneLine w := by
  cases h with
  | blank _ hgaps => exact oneLine_of_gaps hgaps
  | comment _ _ hgaps hnote =>
    exact (oneLine_of_gaps hgaps).append (oneLine_commentSign.append hnote)

/-- A silent line says nothing. -/
theorem Silent.said_eq (h : Silent w) (g : String → String) : said g w = some [] := by
  have hnil : (skip ⟨0, w⟩).rest = [] := by rw [skip_rest, h.afterSkip_eq]
  rw [said_of_oneLine h.oneLine, lineSaid, line_eq_none_of_nil hnil]
  exact if_pos hnil

theorem oneLine_of_line {c e : Cursor} (hc : OneLine c.rest) (h : (line c).found = some (n, e)) :
    OneLine e.rest := by
  have halong : Along (· = []) c c := ⟨hc, [], rfl, by simp⟩
  have hsame := line_along (inert_atLineEnd atLineEnd_nil id) halong
  rw [h] at hsame
  rcases hsame.eq_none_or_some with ⟨hnone, -⟩ | ⟨_, _, _, _, -, hsome, -, hbeyond⟩
  · cases hnone
  · cases hsome
    rcases hbeyond with halong | ⟨hnil, -⟩
    · exact halong.line
    · exact hnil ▸ oneLine_nil

/-- Blanks and a comment behind a line are skipped with its end. -/
theorem skip_eq_nil_iff {c d : Cursor} (hc : OneLine c.rest) (h : Beyond Trailing c d) :
    (skip c).rest = [] ↔ (skip d).rest = [] := by
  obtain ⟨-, t, ht, hrest⟩ := skip_along inert_trailing h
  constructor
  · intro hnil
    rw [hrest] at hnil
    exact (List.append_eq_nil_iff.mp hnil).1
  · intro hnil
    rw [hnil, List.nil_append] at hrest
    refine hc.skip.eq_nil ?_
    have hover := ht.skipped
    rw [← hrest, afterSkip_of_settled (settled_skip c)] at hover
    exact hover

/-- A line says the same with blanks and a comment behind it. -/
theorem lineSaid_along {c d : Cursor} (hc : OneLine c.rest) (h : Along Trailing c d) :
    lineSaid trimmed c = lineSaid trimmed d := by
  have hread := line_along inert_trailing (skip_along inert_trailing h.beyond)
  unfold lineSaid
  rcases hread.eq_none_or_some with ⟨hc', hd'⟩ | ⟨n, e, n', e', hc', hd', hn, hbeyond⟩
  · simp only [hc', hd', skip_eq_nil_iff hc h.beyond]
  · simp only [hc', hd', hn, skip_eq_nil_iff (oneLine_of_line hc.skip hc') hbeyond]

/-- A comment behind a line changes nothing about it. -/
theorem said_remark {note : List Char} {gap : Char} (hw : OneLine w) (hgap : isGap gap = true)
    (hnote : OneLine note) :
    said trimmed (w ++ gap :: (commentSign ++ note)) = said trimmed w := by
  have hgaps : ∀ x ∈ [gap], isGap x = true := by simpa using hgap
  have htrailing : Trailing (gap :: (commentSign ++ note)) := by
    refine ⟨fun x hx => ?_, ?_⟩
    · obtain rfl : gap = x := by simpa using hx
      simp [hgap]
    · have hnil : afterSkip (gap :: (commentSign ++ note)) = [] := afterSkip_comment hgaps hnote
      rw [hnil]
      exact atLineEnd_nil
  have hline : OneLine (w ++ gap :: (commentSign ++ note)) :=
    hw.append ((oneLine_of_gaps hgaps).append (oneLine_commentSign.append hnote))
  rw [said_of_oneLine hline, said_of_oneLine hw]
  exact lineSaid_along hline ⟨hw, _, htrailing, rfl⟩

/-- **Edits keep the headers, in some order, and the rows in theirs.** -/
theorem gist_of_edit {ws ws' : List (List Char)} (h : Edit ws ws') :
    (saidAll trimmed ws).map gist = (saidAll trimmed ws').map gist := by
  cases h with
  | insert above below hsilent =>
    rw [saidAll_append, saidAll_append, saidAll, hsilent.said_eq]
    cases saidAll trimmed below <;> simp
  | remark above below w gap note hw hgap hnote =>
    rw [saidAll_append, saidAll_append, saidAll, saidAll, said_remark hw hgap hnote]
  | @move above between below w hheader =>
    obtain ⟨n, hn, hheader⟩ := hheader
    have hsaid : said trimmed w = some [n.said trimmed] := said_eq_some_iff.mpr ⟨[n], hn, rfl⟩
    have hgist := gist_header (isHeader_said hheader trimmed)
    simp only [saidAll_append, saidAll, hsaid]
    cases saidAll trimmed above with
    | none => rfl
    | some A =>
      cases saidAll trimmed between with
      | none => simp
      | some B =>
        cases saidAll trimmed below with
        | none => simp
        | some D =>
          have hcomm := add_left_comm {n.said trimmed} (gist B).1 (gist D).1
          simp only [Option.map₂_some_some, Option.map_some, gist_append, hgist, List.nil_append,
            hcomm]

theorem gist_of_edits {ws ws' : List (List Char)} (h : Relation.EqvGen Edit ws ws') :
    (saidAll trimmed ws).map gist = (saidAll trimmed ws').map gist := by
  induction h with
  | rel ws ws' h => exact gist_of_edit h
  | refl ws => rfl
  | symm ws ws' _ ih => exact ih.symm
  | trans ws ws' ws'' _ _ ih ih' => exact ih.trans ih'

/-- **A text is read line by line.** It is a description if and only if every piece between its line
ends is one, and its lines are those of the pieces in order. Hence the machine stays the same under
changes of the line ends and edits of the lines: silent lines put in or taken out anywhere, comments
put behind lines or taken away, headers moved up or down. -/
theorem parse_line_by_line (text : String) :
    ((∃ nodes, machine text.toList = .ok nodes) ↔
      ∀ w ∈ pieces text.toList, ∃ nodes, machine w = .ok nodes) ∧
    (∀ nodes, machine text.toList = .ok nodes → ∃ parts,
      List.Forall₂ (fun w part => machine w = .ok part) (pieces text.toList) parts ∧
      nodes.map Node.content = parts.flatten.map Node.content) ∧
    HasLines (pieces text.toList) text.toList ∧
    ∀ m ws ws' text', parse text = .ok m → HasLines ws text.toList → Relation.EqvGen Edit ws ws' →
      HasLines ws' text'.toList → parse text' = .ok m := by
  have hcontent : Node.said id = Node.content := funext said_id
  have hmachine : ∀ nodes, machine text.toList = .ok nodes → ∃ parts,
      List.Forall₂ (fun w part => machine w = .ok part) (pieces text.toList) parts ∧
      nodes.map Node.content = parts.flatten.map Node.content := by
    intro nodes hnodes
    have hsaid : said id text.toList = some (nodes.map Node.content) :=
      said_eq_some_iff.mpr ⟨nodes, hnodes, by rw [hcontent]⟩
    rw [said_pieces] at hsaid
    obtain ⟨parts, hparts, heq⟩ := saidAll_eq_some_iff.mp hsaid
    exact ⟨parts, hparts, by rw [← heq, hcontent]⟩
  refine ⟨?_, hmachine, hasLines_pieces _, ?_⟩
  · rw [← exists_parts_iff]
    constructor
    · rintro ⟨nodes, hnodes⟩
      obtain ⟨parts, hparts, -⟩ := hmachine nodes hnodes
      exact ⟨parts, hparts⟩
    · rintro ⟨parts, hparts⟩
      have hsaid := saidAll_eq_some_iff.mpr ⟨parts, hparts,
        (rfl : _ = parts.flatten.map (Node.said id))⟩
      rw [← said_pieces] at hsaid
      obtain ⟨nodes, hnodes, -⟩ := said_eq_some_iff.mp hsaid
      exact ⟨nodes, hnodes⟩
  · intro m ws ws' text' hparse hlines hedits hlines'
    refine parse_of_gist hparse ?_
    rw [said_of_hasLines hlines, said_of_hasLines hlines', gist_of_edits hedits]

/-- The scattered description with other line ends, its name at the bottom, a comment behind a line
and one between the two lines of its rule. -/
def rearranged : String :=
  "init:\tinit: // start\r// nothing\r\rinit:, _\t//read\n \t// between\r\n" ++
    "init://x,_ ,L // back\nname:  A / B  \n"

theorem parse_rearranged :
    parse scattered = .ok scatteredMachine ∧ parse rearranged = .ok scatteredMachine := by
  let top : List (List Char) := ["init:\tinit: // start".toList, "// nothing".toList, []]
  have hheader : IsHeaderLine "name:  A / B  ".toList :=
    ⟨⟨.name "A / B  ", ⟨0, 14⟩⟩, by decide +kernel, rfl⟩
  have hsilent : Silent " \t// between".toList :=
    .comment [' ', '\t'] " between".toList (List.all_eq_true.mp rfl) (by decide)
  have hmove := Edit.move top ["init:, _".toList, "init://x,_ ,L // back".toList] [[]] hheader
  have hremark := Edit.remark top ["init://x,_ ,L // back".toList, "name:  A / B  ".toList, []]
    "init:, _".toList '\t' "read".toList (by decide) rfl (by decide)
  have hinsert := Edit.insert (top ++ ["init:, _\t//read".toList])
    ["init://x,_ ,L // back".toList, "name:  A / B  ".toList, []] hsilent
  have htext : scattered.toList =
      "init:\tinit: // start".toList ++ ("\r\n".toList ++
      ("// nothing".toList ++ ("\n".toList ++ ([] ++ ("\n".toList ++
      ("name:  A / B  ".toList ++ ("\r\n".toList ++ ("init:, _".toList ++ ("\n".toList ++
      ("init://x,_ ,L // back".toList ++ ("\n".toList ++ []))))))))))) := by
    decide +kernel
  have htext' : rearranged.toList =
      "init:\tinit: // start".toList ++ ("\r".toList ++
      ("// nothing".toList ++ ("\r".toList ++ ([] ++ ("\r".toList ++
      ("init:, _\t//read".toList ++ ("\n".toList ++ (" \t// between".toList ++ ("\r\n".toList ++
      ("init://x,_ ,L // back".toList ++ ("\n".toList ++
      ("name:  A / B  ".toList ++ ("\n".toList ++ []))))))))))))) := by
    decide +kernel
  have hlines : HasLines (top ++
      ["name:  A / B  ".toList, "init:, _".toList, "init://x,_ ,L // back".toList, []])
      scattered.toList := by
    rw [htext]
    repeat refine .cons (by decide) (by decide) ?_
    exact .last oneLine_nil
  have hlines' : HasLines (top ++ ["init:, _\t//read".toList, " \t// between".toList,
      "init://x,_ ,L // back".toList, "name:  A / B  ".toList, []]) rearranged.toList := by
    rw [htext']
    repeat refine .cons (by decide) (by decide) ?_
    exact .last oneLine_nil
  refine ⟨parse_scattered, ?_⟩
  refine (parse_line_by_line scattered).2.2.2 _ _ _ _ parse_scattered hlines ?_ hlines'
  exact .trans _ _ _ (.rel _ _ hmove) (.trans _ _ _ (.rel _ _ hremark) (.rel _ _ hinsert))

end OneTape.Description
