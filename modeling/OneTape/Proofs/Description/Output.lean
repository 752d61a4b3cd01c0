import OneTape.Proofs.Description.RoundTrip
import OneTape.Proofs.Tower

/-!
# Descriptions of compiled machines

The rows that are written for a compiled machine begin with the names of its states, and these begin
with the names of source states. So they are read like the rows of the source machine, with one
exception: the word `init:` is a name as long as no item follows it, and in a compiled machine the
bracket of a marker does.

Results:
* `State.name_cases`: a name goes on behind the source state with a bracket.
* `beginsRow_bracket_iff`: which names begin a row with the bracket behind them.
* `Generated.beginsRow_iff`: which compiled machines have rows that are read as rows.
* `writable_compile_iff`: which compiled machines are writable.
* `parse_write_compile_iff`: which compiled machines are read back.
-/

namespace OneTape

variable {m f : Machine} {c : Config}

theorem Machine.name_of_compile (h : m.compile c = .ok f) : f.name = m.name := by
  obtain ⟨flat, hflat, hf⟩ := compile_eq_ok_iff.mp h
  obtain ⟨k, rows, -, -, -, rfl, -, -⟩ := flatten_eq_ok hflat
  obtain ⟨-, -, hf⟩ := except_bind_eq_ok_iff.mp hf
  cases hf
  rfl

/-- A machine whose names have neither brackets nor the sign of an extension is compiled. -/
theorem Machine.WellFormed.exists_compile {k : Nat} (hm : m.WellFormed k)
    (hnames : ∀ q ∈ m.stateNames, '[' ∉ q.toList ∧ '!' ∉ q.toList)
    (hsymbols : ∀ x ∈ m.symbols, '[' ∉ x.text.toList ∧ ']' ∉ x.text.toList) :
    ∃ f, m.compile {} = .ok f := by
  have hunbracketed : ∀ x ∈ m.symbols, x.Unbracketed := by
    intro x hx c hc hbracket
    obtain ⟨hopen, hclose⟩ := hsymbols x hx
    simp only [List.mem_cons, List.not_mem_nil, or_false] at hbracket
    rcases hbracket with rfl | rfl
    · exact hopen hc
    · exact hclose hc
  have hstack : m.Stackable [] :=
    ⟨⟨k, hm⟩, fun q hq => .of_plain (hnames q hq).1 (hnames q hq).2, hunbracketed⟩
  obtain ⟨flat, f, hflat, -, hname, -⟩ := hstack.level (c := {}) rfl rfl (by decide) (by decide)
  exact ⟨f, compile_eq_ok_iff.mpr ⟨flat, hflat, hname⟩⟩

/-- **A name goes on behind the source state with a bracket**, or it is the name of the source
state. -/
theorem State.name_cases {s : State} (hs : s.heads = [] → s.phase = .discover) :
    s.heads = [] ∧ s.name = s.base ∨
      s.heads ≠ [] ∧ ∃ t, s.name.toList = s.base.toList ++ '[' :: t := by
  cases hh : s.heads with
  | nil =>
    refine .inl ⟨rfl, String.toList_injective ?_⟩
    rw [toList_name, hh, hs hh]
    simp [brackets, Phase.suffix]
  | cons x xs =>
    refine .inr ⟨List.cons_ne_nil x xs,
      x.text.toList ++ ']' :: (brackets xs ++ s.phase.suffix.toList), ?_⟩
    rw [toList_name, hh]
    simp [brackets]

namespace Description

/-! ## Items -/

theorem prefix_of_notMem {x : Char} {u w t : List Char} (hu : x ∉ u)
    (h : u <+: w ++ x :: t) : u <+: w := by
  refine prefix_of_stops (p := (· != x)) (fun y hy => ?_) (fun y hy => ?_) h
  · simpa using fun he : y = x => hu (he ▸ hy)
  · obtain rfl : x = y := by simpa using hy
    simp

theorem isItemChar_of_unseparated {x : Char} (h : Machine.Unseparated x) : isItemChar x = true := by
  have hblank : ∀ y ∈ [' ', '\t', '\n', '\r'], x ≠ y := by
    rintro y hy rfl
    have hspace : ∀ y ∈ [' ', '\t', '\n', '\r'], Text.isSpace y = true := List.all_eq_true.mp rfl
    exact absurd (h.2.symm.trans (hspace x hy)) Bool.false_ne_true
  simp [isItemChar, isLineEnd, isGap, h.1, hblank]

theorem isItem_of_isWord {s : String} (hw : Machine.isWord s = true)
    (hs : ¬ commentSign <+: s.toList) :
    IsItem s := by
  obtain ⟨hne, hall⟩ := Machine.isWord_iff.mp hw
  exact ⟨hne, fun x hx => isItemChar_of_unseparated (hall x hx), hs⟩

/-- Escaping and marking do not make a comment. -/
theorem inherited_uncommented : Symbol.Inherited fun s => ¬ commentSign <+: s.text.toList where
  own := by decide
  escape {s} iteration h := by
    cases hs : s.needsEscape iteration with
    | false => rwa [Symbol.escape_eq_self hs]
    | true =>
      rw [Symbol.escape_of_needsEscape hs]
      simp [commentSign, Symbol.escapeChar]
  marker {s} iteration h := by
    rw [Symbol.toList_marker]
    exact fun hc => h (prefix_of_notMem (by decide) hc)

theorem uncommented_name {s : State} (hs : s.heads = [] → s.phase = .discover)
    (hb : ¬ commentSign <+: s.base.toList) : ¬ commentSign <+: s.name.toList := by
  rcases State.name_cases hs with ⟨-, hn⟩ | ⟨-, t, hn⟩
  · rwa [hn]
  · rw [hn]
    exact fun hc => hb (prefix_of_notMem (by decide) hc)

/-! ## Rows -/

/-- **A bracket behind the name of a state makes a header of `init:` only.** -/
theorem beginsRow_bracket_iff {q name : String} {t : List Char} (hq : BeginsRow q)
    (hn : name.toList = q.toList ++ '[' :: t) : BeginsRow name ↔ q ≠ "init:" := by
  constructor
  · rintro hname rfl
    have hinit := hname.init (by rw [hn]; exact List.prefix_append _ _)
    rw [hn] at hinit
    simp [commentSign] at hinit
  · intro hne
    refine ⟨?_, ?_, ?_⟩ <;> rw [hn]
    · exact fun h => hq.name (prefix_of_notMem (by decide) h)
    · exact fun h => hq.accept (prefix_of_notMem (by decide) h)
    · intro h
      have hprefix := prefix_of_notMem (by decide) h
      obtain ⟨u, hu⟩ := hprefix
      have hdrop : q.toList.drop 5 = u := by
        rw [← hu]
        rfl
      rcases hq.init ⟨u, hu⟩ with hnil | hcomment
      · -- the name is the keyword itself
        refine absurd (String.toList_injective ?_) hne
        rw [← hu, ← hdrop, hnil, List.append_nil]
      · right
        rw [List.drop_append_of_le_length (by rw [← hu]; simp)]
        exact hcomment.trans (List.prefix_append _ _)

end Description

namespace Generated

open Description

variable {iteration k : Nat} {safety : Safety} {flat : FlatMachine}

/-- **The rows of a compiled machine are read as rows** if no rule of the source machine is for
`init:`. A state with a marker stays with the state of a rule. -/
theorem beginsRow_iff (hg : Generated m iteration safety k flat)
    (hm : ∀ r ∈ m.rules, BeginsRow r.state ∧ BeginsRow r.next) :
    (∀ r ∈ flat.rows, BeginsRow r.state.name ∧ BeginsRow r.next.name) ↔
      ∀ r ∈ m.rules, r.state ≠ "init:" := by
  have hsource : ∀ {s}, s ∈ flat.states → s.heads = [] → s.phase = .discover := fun hs =>
    (hg.stems (List.mem_append_left _ hs)).source
  have hbracket : ∀ {s rule}, s ∈ flat.states → rule ∈ m.rules → s.base = rule.state →
      rule.state ≠ "init:" → BeginsRow s.name := by
    intro s rule hs hrule hb hne
    rcases State.name_cases (hsource hs) with ⟨-, hn⟩ | ⟨-, t, hn⟩
    · rw [hn, hb]
      exact (hm rule hrule).1
    · rw [hb] at hn
      exact (beginsRow_bracket_iff (hm rule hrule).1 hn).mpr hne
  constructor
  · intro hrows rule hrule
    have hescaped : rule.escape iteration ∈ (m.escape iteration).rules := List.mem_map_of_mem hrule
    -- the state in which discovery hands over to the rule has the markers of all its symbols
    have hrow := (hg.mem_rows _).mpr ⟨_, hescaped, .discover .handOverEnd⟩
    rcases State.name_cases (hsource (FlatMachine.state_mem_states hrow)) with
      ⟨hnil, -⟩ | ⟨-, t, hn⟩
    · have hpos := hg.wellFormed.tapes_pos
      rw [← (hg.fits.lengths _ hescaped).1, List.map_eq_nil_iff.mp hnil] at hpos
      exact absurd hpos (Nat.lt_irrefl 0)
    · exact (beginsRow_bracket_iff (hm rule hrule).1 hn).mp (hrows _ hrow).1
  · intro hne r hr
    obtain ⟨_, hescaped, he⟩ := (hg.mem_rows r).mp hr
    obtain ⟨rule, hrule, rfl⟩ := List.mem_map.mp hescaped
    refine ⟨hbracket (FlatMachine.state_mem_states hr) hrule he.base_state (hne rule hrule), ?_⟩
    by_cases hp : r.state.phase = .complete
    · obtain ⟨x, -, rfl⟩ := he.of_complete hp
      rw [Compiled.name_source]
      exact (hm rule hrule).2
    · exact hbracket (FlatMachine.next_mem_states hr) hrule (he.base_next hp) (hne rule hrule)

end Generated

namespace Description

/-- **A compiled machine is writable** if its source machine is and has no rule for `init:`. -/
theorem writable_compile_iff (hm : Writable m) (hp : c.placeholder = none)
    (hf : m.compile c = .ok f) :
    Writable f ↔ ∀ r ∈ m.rules, r.state ≠ "init:" := by
  obtain ⟨flat, hflat, hname⟩ := Machine.compile_eq_ok_iff.mp hf
  obtain ⟨k, hg⟩ := Generated.of_flatten hflat hp
  have hn := FlatMachine.named_of_toMachine hg.nodup hname
  have hwf := hg.wellFormed_named hn
  have hrules : (∀ r ∈ f.rules, BeginsRow r.state ∧ BeginsRow r.next) ↔
      ∀ r ∈ flat.rows, BeginsRow r.state.name ∧ BeginsRow r.next.name := by
    rw [hn.rules]
    exact List.forall_mem_map
  rw [← hg.beginsRow_iff hm.rows, ← hrules]
  refine ⟨Writable.rows, fun hrows => ⟨?_, fun q hq => ?_, fun x hx => ?_, hrows⟩⟩
  · rw [Machine.name_of_compile hf]
    exact hm.name
  · obtain ⟨s, hs, rfl⟩ := hn.mem_stateNames hq
    have hstems := hg.stems hs
    exact isItem_of_isWord (hwf.names _ hq)
      (uncommented_name hstems.source (hm.states _ hstems.base).comment)
  · exact isItem_of_isWord (hwf.words x hx)
      (inherited_uncommented.of_onTape (fun y hy => (hm.symbols y hy).comment)
        (hg.onTape_of_mem_symbols hn hx))

/-- **What is written for a compiled machine is read back**, unless its source machine has rules for
a state with the name `init:`. -/
theorem parse_write_compile_iff (description : String) (m f : Machine) (c : Config)
    (hm : parse description = .ok m) (hp : c.placeholder = none) (hf : m.compile c = .ok f) :
    parse (write f) = .ok f ↔ ∀ r ∈ m.rules, r.state ≠ "init:" := by
  rw [parse_write_eq_ok_iff, writable_compile_iff (writable_of_parse hm).1 hp hf]
  exact and_iff_left (Machine.analyze_of_compile hp hf)

/-- A description with names and symbols that look like comments and headers, one of which is
escaped. -/
def slashes : String :=
  "name: / /\ninit: /\naccept: init:, name\n/, _, \\\ninit://x, a//, .1, >, <\n"

/-- What it describes. -/
def slashesMachine : Machine :=
  ⟨"/ /", "/", ["init:", "name"],
    [⟨"/", [Symbol.blank, ⟨"\\"⟩], "init://x", [⟨"a//"⟩, ⟨".1"⟩], [.right, .left]⟩]⟩

theorem wellFormed_slashes : slashesMachine.WellFormed 2 :=
  ⟨rfl, by decide, by decide, by decide, by decide, by decide, by unfold Functional; decide⟩

theorem parse_slashes : parse slashes = .ok slashesMachine := by
  refine parse_eq_ok_iff.mpr ⟨[⟨.name "/ /", ⟨0, 9⟩⟩, ⟨.init "/", ⟨10, 17⟩⟩,
    ⟨.accept ["init:", "name"], ⟨18, 37⟩⟩, ⟨.row ["/", "_", "\\"], ⟨38, 45⟩⟩,
    ⟨.row ["init://x", "a//", ".1", ">", "<"], ⟨46, 69⟩⟩], by decide +kernel, by decide +kernel, ?_⟩
  exact Machine.analyze_eq_ok_iff.mpr ⟨2, wellFormed_slashes⟩

/-- The machine with such names is compiled, and read back from what is written for it. -/
theorem parse_write_compile_slashes : ∃ f, parse slashes = .ok slashesMachine ∧
    slashesMachine.compile {} = .ok f ∧ parse (write f) = .ok f := by
  obtain ⟨f, hf⟩ := wellFormed_slashes.exists_compile (by decide) (by decide)
  exact ⟨f, parse_slashes, hf,
    (parse_write_compile_iff slashes slashesMachine f {} parse_slashes rfl hf).mpr (by decide)⟩

/-- A description of a machine that stays where it is, in a state with the name `init:`. -/
def initLoop : String := "name: Loop\ninit: init:\naccept: init:\ninit:, _\ninit:, _, -\n"

/-- **What is written for a compiled machine with a state `init:` is not read back.** -/
theorem parse_write_compile_initLoop : ∃ f, parse initLoop = .ok (.loop "init:") ∧
    (Machine.loop "init:").compile {} = .ok f ∧ parse (write f) ≠ .ok f := by
  have hloop : (Machine.loop "init:").WellFormed 1 := Machine.wellFormed_loop (by decide)
  have hparse : parse initLoop = .ok (.loop "init:") := by
    refine parse_eq_ok_iff.mpr ⟨[⟨.name "Loop", ⟨0, 10⟩⟩, ⟨.init "init:", ⟨11, 22⟩⟩,
      ⟨.accept ["init:"], ⟨23, 36⟩⟩, ⟨.row ["init:", "_"], ⟨37, 45⟩⟩,
      ⟨.row ["init:", "_", "-"], ⟨46, 57⟩⟩], by decide +kernel, by decide +kernel, ?_⟩
    exact Machine.analyze_eq_ok_iff.mpr ⟨1, hloop⟩
  obtain ⟨f, hf⟩ := hloop.exists_compile (by decide) (by decide)
  refine ⟨f, hparse, hf, fun hread => ?_⟩
  have hne := (writable_compile_iff (writable_of_parse hparse).1 rfl hf).mp
    (writable_of_parse hread).1
  exact hne _ List.mem_cons_self rfl

end Description
end OneTape
