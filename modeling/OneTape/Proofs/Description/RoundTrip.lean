import Mathlib.Data.List.DropRight
import OneTape.Description.Reader
import OneTape.Proofs.Analysis
import OneTape.Proofs.Description.Lines

/-!
# Writing and reading descriptions

A machine is *writable* if its names and symbols are items, no state of its rules begins like a
header, and its name is a piece of a line without white space at its ends. These are the machines
that descriptions can describe, and each of them is read back from what is written for it.

Results:
* `legible_of_machine`, `machine_spelled`: the lines of a whole text.
* `writable_of_parse`: a machine that was read is writable.
* `parse_write_eq_ok_iff`: the machines that are read back from what is written for them.
* `parse_write_of_parse`: writing and reading is the identity on machines that were read.
-/

namespace OneTape.Description

variable {i : Nat} {cs rest : List Char} {c e : Cursor} {nodes : List Node} {a : Attempts}
  {contents : List Content} {content : Content} {m : Machine} {r : Rule}

/-! ## Empty lines -/

theorem lineEnd?_newline (i : Nat) (cs : List Char) :
    lineEnd? ⟨i, '\n' :: cs⟩ = some ⟨i + 1, cs⟩ := rfl

theorem lineEnd?_eq_none (h : Stops isLineEnd rest) : lineEnd? ⟨i, rest⟩ = none := by
  unfold lineEnd?
  split
  · next heq => exact absurd (h '\r' (by simp [show rest = _ from heq])) (by decide)
  · next heq => exact absurd (h '\n' (by simp [show rest = _ from heq])) (by decide)
  · next heq => exact absurd (h '\r' (by simp [show rest = _ from heq])) (by decide)
  · rfl

theorem emptyLines_of_none (h : lineEnd? (skip c) = none) : emptyLines c = skip c := by
  rw [emptyLines]
  split
  · rfl
  · next hsome => cases h.symm.trans hsome

theorem emptyLines_of_some (h : lineEnd? (skip c) = some e) : emptyLines c = emptyLines e := by
  rw [emptyLines]
  split
  · next hnone => cases h.symm.trans hnone
  · next e' hsome => rw [Option.some.inj (h.symm.trans hsome)]

theorem skip_newline (i : Nat) (cs : List Char) : skip ⟨i, '\n' :: cs⟩ = ⟨i, '\n' :: cs⟩ :=
  skip_of_settled (settled_of_atLineEnd (atLineEnd_newline cs))

theorem emptyLines_newlines (h : Settled rest) (hline : Stops isLineEnd rest) (n : Nat) :
    emptyLines ⟨i, List.replicate n '\n' ++ rest⟩ = ⟨i + n, rest⟩ := by
  induction n generalizing i with
  | zero =>
    have hskip := skip_of_settled (i := i) h
    show emptyLines ⟨i, rest⟩ = ⟨i, rest⟩
    rw [emptyLines_of_none (by rw [hskip]; exact lineEnd?_eq_none hline), hskip]
  | succ n ih =>
    rw [List.replicate_succ, List.cons_append,
      emptyLines_of_some (by rw [skip_newline]; exact lineEnd?_newline _ _), ih]
    congr 1
    omega

theorem settled_emptyLines (c : Cursor) : Settled (emptyLines c).rest := by
  fun_induction emptyLines c with
  | case1 c h => exact settled_skip c
  | case2 c e h ih => exact ih

/-! ## Reading lines -/

theorem lines_of_none {b : Cursor} (nodes : List Node) (a : Attempts)
    (hb : lineEnd? (skip c) = some b) (h : (line (emptyLines b)).found = none) :
    (lines c nodes a).nodes = nodes.reverse ∧ (lines c nodes a).stop = emptyLines b := by
  rw [lines]
  split
  · next hnone => cases hb.symm.trans hnone
  · next b' hsome =>
    obtain rfl := Option.some.inj (hb.symm.trans hsome)
    dsimp only
    split
    · exact ⟨rfl, rfl⟩
    · next hfound => cases h.symm.trans hfound

theorem lines_of_some {b : Cursor} {n : Node} (hb : lineEnd? (skip c) = some b)
    (h : (line (emptyLines b)).found = some (n, e)) :
    lines c nodes a = lines e (n :: nodes) ((line (emptyLines b)).note a) := by
  rw [lines]
  split
  · next hnone => cases hb.symm.trans hnone
  · next b' hsome =>
    obtain rfl := Option.some.inj (hb.symm.trans hsome)
    dsimp only
    split
    · next hfound => cases h.symm.trans hfound
    · next n' e' hfound =>
      obtain ⟨rfl, rfl⟩ := Prod.mk.inj (Option.some.inj (h.symm.trans hfound))
      rfl

/-- The lines that are read are legible if those read before are. -/
theorem legible_of_lines (hnodes : ∀ n ∈ nodes, n.content.Legible) :
    ∀ n ∈ (lines c nodes a).nodes, n.content.Legible := by
  fun_induction lines c nodes a with
  | case1 c nodes a h => simpa using hnodes
  | case2 c nodes a b hb t ht => simpa using hnodes
  | case3 c nodes a b hb t n e ht ih =>
    refine ih fun n' hn' => ?_
    rcases List.mem_cons.mp hn' with rfl | hn'
    · exact legible_of_line (settled_emptyLines b) ht
    · exact hnodes n' hn'

/-- **The lines of a description are legible.** -/
theorem legible_of_machine (h : machine cs = .ok nodes) : ∀ n ∈ nodes, n.content.Legible := by
  unfold machine at h
  dsimp only at h
  split_ifs at h with hstop
  obtain rfl := Except.ok.inj h
  unfold progress
  dsimp only
  split
  · simp
  · next n e hfound =>
    refine legible_of_lines fun n' hn' => ?_
    obtain rfl := List.mem_singleton.mp hn'
    exact legible_of_line (settled_emptyLines _) hfound

/-! ## Lines below each other -/

/-- The text behind a line holds these lines, each behind at least one line end, and ends with a
line end. -/
inductive Spelled : List Content → List Char → Prop
  | done : Spelled [] ['\n']
  | line {content : Content} {contents : List Content} {rest : List Char} (n : Nat) :
      content.Legible → Spelled contents rest →
      Spelled (content :: contents) ('\n' :: (List.replicate n '\n' ++ (content.spell ++ rest)))

theorem Spelled.atLineEnd (h : Spelled contents rest) : AtLineEnd rest := by
  cases h <;> exact atLineEnd_newline _

theorem Content.Legible.starts (h : content.Legible) (hrest : AtLineEnd rest) :
    Settled (content.spell ++ rest) ∧ Stops isLineEnd (content.spell ++ rest) := by
  have hheader : ∀ {x : Char} {t : List Char}, isItemChar x = true → x ≠ '/' →
      Settled (x :: t) ∧ Stops isLineEnd (x :: t) := by
    intro x t hx hslash
    refine ⟨settled_cons (isGap_of_isItemChar hx) hslash, fun y hy => ?_⟩
    obtain rfl : x = y := by simpa using hy
    exact isLineEnd_of_isItemChar hx
  cases content with
  | name text =>
    have hspell : (Content.name text).spell = 'n' :: ("ame: ".toList ++ text.toList) := by
      simp [Content.spell, Content.spellHeader]
    rw [hspell]
    exact hheader rfl (by decide)
  | init state =>
    have hspell : (Content.init state).spell = 'i' :: ("nit: ".toList ++ state.toList) := by
      simp [Content.spell, Content.spellHeader]
    rw [hspell]
    exact hheader rfl (by decide)
  | accept states =>
    have hspell : (Content.accept states).spell =
        'a' :: ("ccept: ".toList ++ (commaSeparated states).toList) := by
      simp [Content.spell, Content.spellHeader]
    rw [hspell]
    exact hheader rfl (by decide)
  | row items =>
    cases items with
    | nil => exact absurd h id
    | cons s ss =>
      rw [Content.spell_row, List.append_assoc]
      refine ⟨h.1.settled (afterItem_behindCommas ss hrest).stops, fun x hx => ?_⟩
      obtain ⟨y, t, hy⟩ := List.exists_cons_of_ne_nil h.1.ne_nil
      obtain rfl : y = x := by simpa [hy] using hx
      exact isLineEnd_of_isItemChar (h.1.chars y (by simp [hy]))

/-- The lines of a text are found one after the other, behind those found before. -/
theorem lines_spelled (h : Spelled contents cs) (i : Nat) (nodes : List Node) (a : Attempts) :
    ∃ found, (lines ⟨i, cs⟩ nodes a).nodes = nodes.reverse ++ found ∧
      found.map Node.content = contents ∧ (lines ⟨i, cs⟩ nodes a).stop.rest = [] := by
  induction h generalizing i nodes a with
  | done =>
    have hend : lineEnd? (skip ⟨i, ['\n']⟩) = some ⟨i + 1, []⟩ := by rw [skip_newline]; rfl
    have hempty : emptyLines ⟨i + 1, []⟩ = ⟨i + 1, []⟩ :=
      emptyLines_newlines ⟨by simp [Stops], by simp [commentSign]⟩ (by simp [Stops]) 0
    have hnone : (line (emptyLines ⟨i + 1, []⟩)).found = none := by rw [hempty]; rfl
    obtain ⟨hnodes, hstop⟩ := lines_of_none nodes a hend hnone
    exact ⟨[], by rw [hnodes, List.append_nil], rfl, by rw [hstop, hempty]⟩
  | @line content contents rest n hlegible hspelled ih =>
    obtain ⟨hsettled, hstops⟩ := hlegible.starts hspelled.atLineEnd
    have hend : lineEnd? (skip ⟨i, '\n' :: (List.replicate n '\n' ++ (content.spell ++ rest))⟩) =
        some ⟨i + 1, List.replicate n '\n' ++ (content.spell ++ rest)⟩ := by
      rw [skip_newline]
      rfl
    obtain ⟨node, ⟨stop, rest'⟩, hfound, hcontent, hrest⟩ :=
      line_spell (i := i + 1 + n) hlegible hspelled.atLineEnd
    obtain rfl : rest = rest' := hrest.symm
    -- the line is found behind the line ends in front of it
    rw [← emptyLines_newlines hsettled hstops] at hfound
    obtain ⟨found, hnodes, hfound', hstop⟩ := ih stop (node :: nodes) _
    rw [lines_of_some hend hfound]
    exact ⟨node :: found, by rw [hnodes]; simp, by simp [hcontent, hfound'], hstop⟩

/-- **Legible lines that are written below each other are a description with these lines.** -/
theorem machine_spelled (hc : content.Legible) (h : Spelled contents rest) :
    ∃ nodes, machine (content.spell ++ rest) = .ok nodes ∧
      nodes.map Node.content = content :: contents := by
  obtain ⟨hsettled, hstops⟩ := hc.starts h.atLineEnd
  have hempty : emptyLines ⟨0, content.spell ++ rest⟩ = ⟨0, content.spell ++ rest⟩ :=
    emptyLines_newlines hsettled hstops 0
  obtain ⟨node, ⟨stop, rest'⟩, hfound, hcontent, hrest⟩ := line_spell (i := 0) hc h.atLineEnd
  obtain rfl : rest = rest' := hrest.symm
  obtain ⟨found, hnodes, hcontents, hstop⟩ :=
    lines_spelled h stop [node] ((line ⟨0, content.spell ++ rest⟩).note .start)
  refine ⟨node :: found, ?_, by simp [hcontent, hcontents]⟩
  simp only [machine, progress, hempty, hfound, hstop, hnodes]
  rfl

/-! ## Trimmed names -/

theorem isSpace_of_isGap {x : Char} (h : isGap x = true) : Text.isSpace x = true := by
  simp only [isGap, Bool.or_eq_true, decide_eq_true_eq] at h
  rcases h with rfl | rfl <;> rfl

theorem trim_eq (cs : List Char) :
    Text.trim cs = (cs.dropWhile Text.isSpace).rdropWhile Text.isSpace := rfl

theorem trim_within (cs : List Char) : Text.trim cs <:+: cs :=
  (List.rdropWhile_prefix Text.isSpace _).isInfix.trans (List.dropWhile_suffix Text.isSpace).isInfix

theorem stops_trim (cs : List Char) : Stops Text.isSpace (Text.trim cs) := by
  intro x hx
  obtain ⟨t, ht⟩ := List.rdropWhile_prefix Text.isSpace (cs.dropWhile Text.isSpace)
  refine stops_dropWhile Text.isSpace cs x ?_
  rw [← ht, ← trim_eq, List.head?_append, Option.mem_def.mp hx]
  rfl

theorem trim_trim (cs : List Char) : Text.trim (Text.trim cs) = Text.trim cs := by
  have hdrop : (Text.trim cs).dropWhile Text.isSpace = Text.trim cs := by
    have hstops := stops_trim cs
    cases h : Text.trim cs with
    | nil => rfl
    | cons x t =>
      rw [h] at hstops
      rw [List.dropWhile_cons, hstops x rfl]
      rfl
  rw [trim_eq, hdrop, trim_eq, List.rdropWhile_idempotent]

/-! ## Writable machines -/

/-- The text can be the name of a machine: it stands on one line, holds no comment, and has no white
space at its ends. -/
structure IsName (s : String) : Prop where
  ne_nil : s.toList ≠ []
  line : Uncommented s.toList
  trimmed : Text.trim s.toList = s.toList

/-- The machine can be described: its name is one, its state names and symbols are items, and the
states of its rules can begin rows. -/
structure Writable (m : Machine) : Prop where
  name : IsName m.name
  states : ∀ q ∈ m.stateNames, IsItem q
  symbols : ∀ s ∈ m.symbols, IsItem s.text
  rows : ∀ r ∈ m.rules, BeginsRow r.state ∧ BeginsRow r.next

/-- The items of the domain line of a rule. -/
def domainItems (r : Rule) : List String := r.state :: r.read.map Symbol.text

/-- The items of the range line of a rule. -/
def rangeItems (r : Rule) : List String :=
  r.next :: (r.write.map Symbol.text ++ r.moves.map Direction.token)

/-! ## Reading a machine -/

/-- What has been read of a description could be written. -/
structure Parts.Legible (p : Parts) : Prop where
  name : ∀ s ∈ p.name, Uncommented s.toList ∧ Text.trim s.toList = s.toList
  init : ∀ s ∈ p.init, IsItem s
  accept : ∀ ss ∈ p.accept, ∀ s ∈ ss, IsItem s
  rows : ∀ row ∈ p.rows, (Content.row row.1).Legible

theorem Parts.Legible.add {p p' : Parts} {n : Node} (hp : p.Legible) (hn : n.content.Legible)
    (h : p.add n = .ok p') : p'.Legible := by
  unfold Parts.add at h
  cases hc : n.content with
  | name text =>
    simp only [hc] at h hn
    split_ifs at h
    obtain rfl := Except.ok.inj h
    refine ⟨fun s hs => ?_, hp.init, hp.accept, hp.rows⟩
    obtain rfl : String.ofList (Text.trim text.toList) = s := by simpa using hs
    rw [String.toList_ofList]
    exact ⟨hn.1.mono (trim_within _), trim_trim _⟩
  | init state =>
    simp only [hc] at h hn
    split_ifs at h
    obtain rfl := Except.ok.inj h
    refine ⟨hp.name, fun s hs => ?_, hp.accept, hp.rows⟩
    obtain rfl : state = s := by simpa using hs
    exact hn
  | accept states =>
    simp only [hc] at h hn
    split_ifs at h
    obtain rfl := Except.ok.inj h
    refine ⟨hp.name, hp.init, fun ss hs => ?_, hp.rows⟩
    obtain rfl : states = ss := by simpa using hs
    exact hn
  | row items =>
    simp only [hc] at h hn
    obtain rfl := Except.ok.inj h
    refine ⟨hp.name, hp.init, hp.accept, fun row hrow => ?_⟩
    rcases List.mem_cons.mp hrow with rfl | hrow
    · exact hn
    · exact hp.rows row hrow

theorem Parts.Legible.foldlM {p p' : Parts} (hp : p.Legible) (hn : ∀ n ∈ nodes, n.content.Legible)
    (h : nodes.foldlM Parts.add p = .ok p') : p'.Legible := by
  induction nodes generalizing p with
  | nil =>
    obtain rfl := Except.ok.inj h
    exact hp
  | cons n nodes ih =>
    rw [List.foldlM_cons] at h
    obtain ⟨p₁, h₁, h₂⟩ := except_bind_eq_ok_iff.mp h
    exact ih (hp.add (hn n List.mem_cons_self) h₁)
      (fun n' hn' => hn n' (List.mem_cons_of_mem n hn')) h₂

theorem Parts.legible_ofNodes {p : Parts} (hn : ∀ n ∈ nodes, n.content.Legible)
    (h : Parts.ofNodes nodes = .ok p) : p.Legible := by
  unfold Parts.ofNodes at h
  cases hf : nodes.foldlM Parts.add {} with
  | error fault => rw [hf] at h; cases h
  | ok p' =>
    rw [hf] at h
    obtain rfl := Except.ok.inj h
    have hlegible : p'.Legible :=
      Parts.Legible.foldlM (p := {}) ⟨nofun, nofun, nofun, nofun⟩ hn hf
    exact ⟨hlegible.name, hlegible.init, hlegible.accept, fun row hrow =>
      hlegible.rows row (List.mem_reverse.mp hrow)⟩

/-- What is required of the rule of two rows. -/
structure WritableRule (r : Rule) : Prop where
  state : IsItem r.state ∧ BeginsRow r.state
  next : IsItem r.next ∧ BeginsRow r.next
  symbols : ∀ s ∈ r.symbols, IsItem s.text

theorem writableRule_of_rule {domain range : List String × Span} (h : rule domain range = .ok r)
    (hd : (Content.row domain.1).Legible) (hr : (Content.row range.1).Legible) :
    WritableRule r := by
  obtain ⟨domain, span⟩ := domain
  obtain ⟨range, span'⟩ := range
  cases domain with
  | nil => exact absurd hd id
  | cons state read =>
    cases range with
    | nil => exact absurd hr id
    | cons next others =>
      unfold rule at h
      dsimp only at h
      split_ifs at h
      split at h
      · cases h
      · obtain rfl := Except.ok.inj h
        refine ⟨⟨hd.1, hd.2.1⟩, ⟨hr.1, hr.2.1⟩, fun s hs => ?_⟩
        simp only [Rule.symbols, List.tail_cons, List.mem_append, List.mem_map] at hs
        rcases hs with ⟨t, ht, rfl⟩ | ⟨t, ht, rfl⟩
        · exact hd.2.2 t ht
        · exact hr.2.2 t (List.mem_of_mem_take ht)

theorem writableRule_of_rules {rows : List (List String × Span)} {found rs : List Rule}
    (h : rules rows found = .ok rs) (hrows : ∀ row ∈ rows, (Content.row row.1).Legible)
    (hfound : ∀ r ∈ found, WritableRule r) : ∀ r ∈ rs, WritableRule r := by
  fun_induction rules rows found with
  | case1 found =>
    obtain rfl := Except.ok.inj h
    simpa using hfound
  | case2 => cases h
  | case3 => cases h
  | case4 domain range rows found r hr ih =>
    refine ih h (fun row hrow => hrows row (by simp [hrow])) fun r' hr' => ?_
    rcases List.mem_cons.mp hr' with rfl | hr'
    · exact writableRule_of_rule hr (hrows domain (by simp)) (hrows range (by simp))
    · exact hfound r' hr'

theorem mapError_eq_ok_iff {ε ε' α : Type} {x : Except ε α} {f : ε → ε'} {y : α} :
    x.mapError f = .ok y ↔ x = .ok y := by
  cases x with
  | error e => simp [Except.mapError]
  | ok z => simp [Except.mapError]

theorem machineOf_eq_ok {text : List Char} (h : machineOf text nodes = .ok m) :
    ∃ parts, Parts.ofNodes nodes = .ok parts ∧ parts.name = some m.name ∧
      parts.init = some m.initial ∧ m.name.toList ≠ [] ∧ m.accept = parts.accept.getD [] ∧
      rules parts.rows [] = .ok m.rules := by
  unfold machineOf at h
  obtain ⟨parts, hparts, h⟩ := except_bind_eq_ok_iff.mp h
  refine ⟨parts, mapError_eq_ok_iff.mp hparts, ?_⟩
  split at h
  · next name hname =>
    split at h
    · next initial hinit =>
      split_ifs at h with hempty
      · cases h
      · obtain ⟨-, -, h⟩ := except_bind_eq_ok_iff.mp h
        obtain ⟨rs, hrs, h⟩ := except_bind_eq_ok_iff.mp h
        obtain rfl := Except.ok.inj h
        exact ⟨hname, hinit, by simpa using hempty, rfl, mapError_eq_ok_iff.mp hrs⟩
    · cases h
  · cases h

theorem machineOf_of_parts (text : List Char) {p : Parts} (h : Parts.ofNodes nodes = .ok p)
    (hname : p.name = some m.name) (hinit : p.init = some m.initial) (hne : m.name.toList ≠ [])
    (haccept : m.accept = p.accept.getD []) (hrules : rules p.rows [] = .ok m.rules) :
    machineOf text nodes = .ok m := by
  have hempty : ¬ m.name.isEmpty = true := by simpa using hne
  unfold machineOf
  rw [h]
  simp only [Except.mapError, except_ok_bind, hname, hinit, if_neg hempty, hrules, ← haccept]
  rfl

theorem parse_eq_ok_iff {description : String} : parse description = .ok m ↔
    ∃ nodes, machine description.toList = .ok nodes ∧ machineOf description.toList nodes = .ok m ∧
      m.analyze = .ok () := by
  unfold parse
  simp only [except_bind_eq_ok_iff, mapError_eq_ok_iff]
  constructor
  · rintro ⟨nodes, hnodes, m', hm, ⟨⟩, hana, h⟩
    obtain rfl := Except.ok.inj h
    exact ⟨nodes, hnodes, hm, hana⟩
  · rintro ⟨nodes, hnodes, hm, hana⟩
    exact ⟨nodes, hnodes, m, hm, (), hana, rfl⟩

/-- **A machine that was read is writable**, and well formed. -/
theorem writable_of_parse {description : String} (h : parse description = .ok m) :
    Writable m ∧ m.analyze = .ok () := by
  obtain ⟨nodes, hnodes, hm, hana⟩ := parse_eq_ok_iff.mp h
  obtain ⟨parts, hparts, hname, hinit, hne, haccept, hrules⟩ := machineOf_eq_ok hm
  have hlegible := Parts.legible_ofNodes (legible_of_machine hnodes) hparts
  have hwritable := writableRule_of_rules hrules hlegible.rows nofun
  refine ⟨⟨?_, fun q hq => ?_, fun s hs => ?_, fun r hr => ?_⟩, hana⟩
  · obtain ⟨hline, htrim⟩ := hlegible.name _ hname
    exact ⟨hne, hline, htrim⟩
  · simp only [Machine.stateNames, List.mem_cons, List.mem_append, List.mem_flatMap,
      List.not_mem_nil, or_false] at hq
    rcases hq with (rfl | hq) | ⟨r, hr, rfl | rfl⟩
    · exact hlegible.init _ hinit
    · rw [haccept] at hq
      cases ha : parts.accept with
      | none => simp [ha] at hq
      | some states => exact hlegible.accept states ha q (by simpa [ha] using hq)
    · exact (hwritable r hr).state.1
    · exact (hwritable r hr).next.1
  · obtain ⟨r, hr, hs⟩ := List.mem_flatMap.mp hs
    exact (hwritable r hr).symbols s hs
  · exact ⟨(hwritable r hr).state.2, (hwritable r hr).next.2⟩

/-! ## Writing a machine -/

theorem commaSeparated_append {xs ys : List String} (hx : xs ≠ []) (hy : ys ≠ []) :
    commaSeparated xs ++ ", " ++ commaSeparated ys = commaSeparated (xs ++ ys) := by
  obtain ⟨x, xs, rfl⟩ := List.exists_cons_of_ne_nil hx
  obtain ⟨y, ys, rfl⟩ := List.exists_cons_of_ne_nil hy
  apply String.toList_injective
  rw [String.toList_append, String.toList_append, List.cons_append, toList_commaSeparated,
    toList_commaSeparated, toList_commaSeparated]
  simp [behindCommas]

theorem commaSeparated_singleton (s : String) : commaSeparated [s] = s := by
  simp [commaSeparated]

/-- The lines of a rule are those of its items. -/
theorem toList_writeRule (hread : r.read ≠ []) (hwrite : r.write ≠ []) (hmoves : r.moves ≠ []) :
    (writeRule r).toList = '\n' :: ((Content.row (domainItems r)).spell ++
      '\n' :: ((Content.row (rangeItems r)).spell ++ ['\n'])) := by
  have hdomain : r.state ++ ", " ++ commaSeparated (r.read.map Symbol.text) =
      commaSeparated (domainItems r) := by
    have hsymbols : r.read.map Symbol.text ≠ [] := by simpa using hread
    have hitems := commaSeparated_append (List.cons_ne_nil r.state []) hsymbols
    rwa [commaSeparated_singleton] at hitems
  have hrange : r.next ++ ", " ++ commaSeparated (r.write.map Symbol.text) ++ ", " ++
      commaSeparated (r.moves.map Direction.token) = commaSeparated (rangeItems r) := by
    have hsymbols : r.write.map Symbol.text ≠ [] := by simpa using hwrite
    have hfront := commaSeparated_append (List.cons_ne_nil r.next []) hsymbols
    rw [commaSeparated_singleton] at hfront
    rw [hfront, commaSeparated_append (by simp) (by simpa using hmoves)]
    rfl
  have hsplit : writeRule r = "\n" ++ commaSeparated (domainItems r) ++ "\n" ++
      commaSeparated (rangeItems r) ++ "\n" := by
    rw [← hdomain, ← hrange]
    delta writeRule
    simp only [String.append_assoc]
  rw [hsplit]
  simp [Content.spell]

/-- The rows of rules, in order. -/
def rowItems (rs : List Rule) : List (List String) :=
  rs.flatMap fun r => [domainItems r, rangeItems r]

theorem isItem_token (d : Direction) : IsItem d.token := by
  cases d <;> decide

theorem legible_domainItems (h : WritableRule r) : (Content.row (domainItems r)).Legible := by
  refine ⟨h.state.1, h.state.2, fun s hs => ?_⟩
  obtain ⟨x, hx, rfl⟩ := List.mem_map.mp hs
  exact h.symbols x (List.mem_append_left _ hx)

theorem legible_rangeItems (h : WritableRule r) : (Content.row (rangeItems r)).Legible := by
  refine ⟨h.next.1, h.next.2, fun s hs => ?_⟩
  rcases List.mem_append.mp hs with hs | hs
  · obtain ⟨x, hx, rfl⟩ := List.mem_map.mp hs
    exact h.symbols x (List.mem_append_right _ hx)
  · obtain ⟨d, -, rfl⟩ := List.mem_map.mp hs
    exact isItem_token d

/-- Rules that are written are legible rows below each other. -/
theorem spelled_rules {rs : List Rule} (hw : ∀ r ∈ rs, WritableRule r)
    (hne : ∀ r ∈ rs, r.read ≠ [] ∧ r.write ≠ [] ∧ r.moves ≠ []) :
    Spelled ((rowItems rs).map Content.row) ('\n' :: (rs.map writeRule).flatMap String.toList) := by
  induction rs with
  | nil => exact .done
  | cons r rs ih =>
    obtain ⟨hread, hwrite, hmoves⟩ := hne r List.mem_cons_self
    have hrest := ih (fun r' hr' => hw r' (List.mem_cons_of_mem r hr'))
      (fun r' hr' => hne r' (List.mem_cons_of_mem r hr'))
    have hrule := hw r List.mem_cons_self
    have hspelled := Spelled.line 1 (legible_domainItems hrule)
      (Spelled.line 0 (legible_rangeItems hrule) hrest)
    rw [List.map_cons, List.flatMap_cons, toList_writeRule hread hwrite hmoves]
    simpa [rowItems] using hspelled

theorem Writable.writableRule (hw : Writable m) (hr : r ∈ m.rules) : WritableRule r where
  state := by
    refine ⟨hw.states _ ?_, (hw.rows r hr).1⟩
    simp only [Machine.stateNames, List.mem_cons, List.mem_append, List.mem_flatMap]
    exact .inr ⟨r, hr, by simp⟩
  next := by
    refine ⟨hw.states _ ?_, (hw.rows r hr).2⟩
    simp only [Machine.stateNames, List.mem_cons, List.mem_append, List.mem_flatMap]
    exact .inr ⟨r, hr, by simp⟩
  symbols s hs := hw.symbols s (List.mem_flatMap.mpr ⟨r, hr, hs⟩)

theorem IsName.legible {s : String} (h : IsName s) : (Content.name s).Legible := by
  refine ⟨h.line, fun x hx => ?_⟩
  have hspace : Text.isSpace x = false := stops_trim s.toList x (by rwa [h.trimmed])
  cases hgap : isGap x with
  | false => rfl
  | true => rw [isSpace_of_isGap hgap] at hspace; cases hspace

/-- **What is written for a writable machine has the lines of the machine.** -/
theorem machine_write {k : Nat} (hw : Writable m) (hm : m.WellFormed k) :
    ∃ nodes, machine (write m).toList = .ok nodes ∧ nodes.map Node.content =
      [.name m.name, .init m.initial, .accept m.accept] ++ (rowItems m.rules).map Content.row := by
  have hne : ∀ r ∈ m.rules, r.read ≠ [] ∧ r.write ≠ [] ∧ r.moves ≠ [] := by
    intro r hr
    obtain ⟨hread, hwrite, hmoves⟩ := hm.lengths r hr
    have hpos := hm.tapes_pos
    refine ⟨?_, ?_, ?_⟩ <;> apply List.ne_nil_of_length_pos <;> omega
  have hinitial : (Content.init m.initial).Legible := hw.states _ (by simp [Machine.stateNames])
  have haccept : (Content.accept m.accept).Legible := fun q hq =>
    hw.states q (by simp [Machine.stateNames, hq])
  have hspelled := Spelled.line 0 hinitial
    (Spelled.line 0 haccept (spelled_rules (fun r hr => hw.writableRule hr) hne))
  obtain ⟨nodes, hnodes, hcontents⟩ := machine_spelled hw.name.legible hspelled
  refine ⟨nodes, ?_, hcontents⟩
  have htext : (write m).toList = (Content.name m.name).spell ++
      '\n' :: ((Content.init m.initial).spell ++
      '\n' :: ((Content.accept m.accept).spell ++
      '\n' :: (m.rules.map writeRule).flatMap String.toList)) := by
    delta write
    simp [Content.spell, Content.spellHeader]
  rw [htext]
  exact hnodes

/-! ## Reading what was written -/

theorem foldlM_add_rows {items : List (List String)}
    (h : nodes.map Node.content = items.map Content.row) (p : Parts) :
    ∃ rows : List (List String × Span), rows.map Prod.fst = items ∧
      nodes.foldlM Parts.add p = .ok { p with rows := rows.reverse ++ p.rows } := by
  induction nodes generalizing items p with
  | nil =>
    obtain rfl : items = [] := by simpa using h.symm
    exact ⟨[], rfl, rfl⟩
  | cons n nodes ih =>
    obtain ⟨first, others, rfl, hfirst, hothers⟩ := List.map_eq_cons_iff.mp h.symm
    obtain ⟨rows, hrows, hfold⟩ := ih hothers.symm { p with rows := (first, n.span) :: p.rows }
    refine ⟨(first, n.span) :: rows, by simp [hrows], ?_⟩
    have hadd : p.add n = .ok { p with rows := (first, n.span) :: p.rows } := by
      simp only [Parts.add, ← hfirst]
    rw [List.foldlM_cons, hadd, except_ok_bind, hfold]
    simp

theorem directions_token (ds : List Direction) : directions (ds.map Direction.token) = .ok ds := by
  induction ds with
  | nil => rfl
  | cons d ds ih =>
    have htoken : Direction.ofToken? d.token = some d := by cases d <;> rfl
    simp only [List.map_cons, directions, htoken, ih]
    rfl

theorem map_mk_text (symbols : List Symbol) :
    (symbols.map Symbol.text).map Symbol.mk = symbols := by
  rw [List.map_map]
  exact List.map_id symbols

/-- A rule is read back from its two rows. -/
theorem rule_of_items {k : Nat} (hk : 0 < k) (hread : r.read.length = k)
    (hwrite : r.write.length = k) (hmoves : r.moves.length = k) (s s' : Span) :
    rule (domainItems r, s) (rangeItems r, s') = .ok r := by
  have htapes : (domainItems r).length - 1 = k := by simp [domainItems, hread]
  have hfields : (rangeItems r).length = 1 + 2 * k := by
    simp [rangeItems, hwrite, hmoves]
    omega
  have hdrop : (rangeItems r).drop (1 + k) = r.moves.map Direction.token := by
    rw [rangeItems, Nat.add_comm 1 k, List.drop_succ_cons]
    exact List.drop_left' (by simp [hwrite])
  have htake : (rangeItems r).tail.take k = r.write.map Symbol.text := by
    rw [rangeItems, List.tail_cons]
    exact List.take_left' (by simp [hwrite])
  unfold rule
  simp only [htapes, hfields, hdrop, htake, directions_token, map_mk_text,
    Nat.pos_iff_ne_zero.mp hk, if_false, ne_eq, not_true_eq_false]
  simp only [domainItems, List.tail_cons, map_mk_text, List.headD_cons, rangeItems]

theorem rules_of_items {k : Nat} {rs : List Rule} (hk : 0 < k)
    (hlen : ∀ r ∈ rs, r.read.length = k ∧ r.write.length = k ∧ r.moves.length = k)
    {rows : List (List String × Span)} (h : rows.map Prod.fst = rowItems rs) (found : List Rule) :
    rules rows found = .ok (found.reverse ++ rs) := by
  induction rs generalizing rows found with
  | nil =>
    obtain rfl : rows = [] := by simpa [rowItems] using h
    simp [rules]
  | cons r rs ih =>
    rw [rowItems, List.flatMap_cons, ← rowItems] at h
    obtain ⟨⟨domain, s⟩, _, rfl, hdomain, htail⟩ := List.map_eq_cons_iff.mp h
    obtain ⟨⟨range, s'⟩, rows, rfl, hrange, hrows⟩ := List.map_eq_cons_iff.mp htail
    obtain rfl : domain = domainItems r := hdomain
    obtain rfl : range = rangeItems r := hrange
    obtain ⟨hread, hwrite, hmoves⟩ := hlen r List.mem_cons_self
    rw [rules, rule_of_items hk hread hwrite hmoves]
    dsimp only
    rw [ih (fun r' hr' => hlen r' (List.mem_cons_of_mem r hr')) hrows]
    simp

theorem machineOf_of_contents {k : Nat} (hm : m.WellFormed k) (hname : IsName m.name)
    (h : nodes.map Node.content =
      [.name m.name, .init m.initial, .accept m.accept] ++ (rowItems m.rules).map Content.row)
    (text : List Char) : machineOf text nodes = .ok m := by
  obtain ⟨n₁, _, rfl, h₁, htail₁⟩ := List.map_eq_cons_iff.mp h
  obtain ⟨n₂, _, rfl, h₂, htail₂⟩ := List.map_eq_cons_iff.mp htail₁
  obtain ⟨n₃, rowNodes, rfl, h₃, htail₃⟩ := List.map_eq_cons_iff.mp htail₂
  obtain ⟨rows, hrows, hfold⟩ :=
    foldlM_add_rows htail₃ { name := some m.name, init := some m.initial, accept := some m.accept }
  have hparts : Parts.ofNodes (n₁ :: n₂ :: n₃ :: rowNodes) = .ok
      { name := some m.name, init := some m.initial, accept := some m.accept, rows } := by
    have htrim : String.ofList (Text.trim m.name.toList) = m.name := by
      rw [hname.trimmed, String.ofList_toList]
    have hadd₁ : Parts.add {} n₁ = .ok { name := some m.name } := by
      simp [Parts.add, h₁, htrim]
    have hadd₂ : Parts.add { name := some m.name } n₂ =
        .ok { name := some m.name, init := some m.initial } := by
      simp [Parts.add, h₂]
    have hadd₃ : Parts.add { name := some m.name, init := some m.initial } n₃ =
        .ok { name := some m.name, init := some m.initial, accept := some m.accept } := by
      simp [Parts.add, h₃]
    unfold Parts.ofNodes
    rw [List.foldlM_cons, hadd₁, except_ok_bind, List.foldlM_cons, hadd₂, except_ok_bind,
      List.foldlM_cons, hadd₃, except_ok_bind, hfold]
    simp [Except.map]
  have hrules := rules_of_items hm.tapes_pos hm.lengths hrows []
  exact machineOf_of_parts text hparts rfl rfl hname.ne_nil rfl hrules

/-- **A writable machine that is well formed is read back from what is written for it**, and no
other machine is. -/
theorem parse_write_eq_ok_iff : parse (write m) = .ok m ↔ Writable m ∧ m.analyze = .ok () := by
  refine ⟨writable_of_parse, fun ⟨hw, hm⟩ => ?_⟩
  obtain ⟨k, hwf⟩ := Machine.analyze_eq_ok_iff.mp hm
  obtain ⟨nodes, hnodes, hcontents⟩ := machine_write hw hwf
  exact parse_eq_ok_iff.mpr ⟨nodes, hnodes, machineOf_of_contents hwf hw.name hcontents _, hm⟩

/-- **Writing and reading is the identity on machines that were read.** -/
theorem parse_write_of_parse (description : String) (m : Machine) (h : parse description = .ok m) :
    parse (write m) = .ok m :=
  parse_write_eq_ok_iff.mpr (writable_of_parse h)

/-- A description with comments, tabs, two kinds of line end, a header below another line, a letter
for a move, and rows that begin like a header. -/
def scattered : String :=
  "init:\tinit: // start\r\n// nothing\n\nname:  A / B  \r\ninit:, _\ninit://x,_ ,L // back\n"

/-- What it describes. -/
def scatteredMachine : Machine :=
  ⟨"A / B", "init:", [], [⟨"init:", [Symbol.blank], "init://x", [Symbol.blank], [.left]⟩]⟩

theorem parse_scattered : parse scattered = .ok scatteredMachine := by
  have hm : scatteredMachine.WellFormed 1 :=
    ⟨rfl, by decide, by decide, by decide, by decide, by decide, by unfold Functional; decide⟩
  refine parse_eq_ok_iff.mpr ⟨[⟨.init "init:", ⟨0, 11⟩⟩, ⟨.name "A / B  ", ⟨34, 48⟩⟩,
    ⟨.row ["init:", "_"], ⟨50, 58⟩⟩, ⟨.row ["init://x", "_", "L"], ⟨59, 72⟩⟩], by decide +kernel,
    by decide +kernel, ?_⟩
  exact Machine.analyze_eq_ok_iff.mpr ⟨1, hm⟩

/-- The scattered description and what is written for its machine describe the same machine. -/
theorem parse_write_scattered : parse scattered = .ok scatteredMachine ∧
    parse (write scatteredMachine) = .ok scatteredMachine :=
  ⟨parse_scattered, parse_write_of_parse scattered scatteredMachine parse_scattered⟩

end OneTape.Description
