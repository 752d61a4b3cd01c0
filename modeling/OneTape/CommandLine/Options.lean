import OneTape.Config

/-!
# Command-line options

The arguments of the command: at most one file, options with a value, and flags. A value stands in
the next argument, behind an equals sign, or right behind a short option; an argument that starts
with a dash is never taken for the value of the option in front of it. Short flags may be joined.
After `--` every argument is a file. Repeated options are refused.
-/

namespace OneTape.CommandLine

/-- The form in which the one-tape machine is written. -/
inductive Format
  | text
  | json
deriving DecidableEq, Inhabited

/-- What the arguments ask for. -/
structure Options where
  file : Option String := none
  sample : Option String := none
  output : Option String := none
  config : Option String := none
  iteration : Option Nat := none
  strict : Bool := false
  noLeftSafety : Bool := false
  noRightSafety : Bool := false
  injectBlanks : Bool := false
  format : Option Format := none
  verbose : Bool := false
deriving DecidableEq, Inhabited

/-- The options that take a value. -/
inductive Setting
  | sample
  | output
  | config
  | iteration
  | format
deriving DecidableEq

/-- The options that take none. -/
inductive Flag
  | strict
  | noLeftSafety
  | noRightSafety
  | injectBlanks
  | verbose
deriving DecidableEq

/-- The options by their long names. -/
def long? (name : String) : Option (Setting ⊕ Flag) :=
  [("sample", .inl .sample), ("output", .inl .output), ("config", .inl .config),
    ("iteration", .inl .iteration), ("format", .inl .format), ("strict", .inr .strict),
    ("no-left-safety", .inr .noLeftSafety), ("no-right-safety", .inr .noRightSafety),
    ("inject-blanks", .inr .injectBlanks), ("verbose", .inr .verbose)].lookup name

/-- The options by their letters. -/
def short? (letter : Char) : Option (Setting ⊕ Flag) :=
  [('s', .inl .sample), ('o', .inl .output), ('c', .inl .config),
    ('v', .inr .verbose)].lookup letter

/-- Reads a number of thirty-two bits: decimal digits, perhaps behind a sign. A minus sign makes
sense in front of zero only. -/
def word32? (s : String) : Option Nat :=
  let (bound, digits) := match s.toList with
    | '+' :: rest => (4294967296, rest)
    | '-' :: rest => (1, rest)
    | cs => (4294967296, cs)
  let counting := digits.dropWhile (· = '0')
  if digits.isEmpty || !digits.all Char.isDigit || counting.length > 10 then none
  else
    let n := counting.foldl (fun n c => n * 10 + (c.toNat - '0'.toNat)) 0
    if n < bound then some n else none

/-- Reads a format. -/
def format? (s : String) : Option Format :=
  if s = "text" then some .text else if s = "json" then some .json else none

/-- Reads a path, which is not empty. -/
def path? (s : String) : Option String := if s.isEmpty then none else some s

namespace Options

/-- Fills an option that is still empty. -/
def fill {α : Type} (old : Option α) (new : Option α) : Option (Option α) :=
  if old.isSome then none else new.map some

/-- Sets an option to a value. -/
def set (o : Options) (s : Setting) (value : String) : Option Options :=
  match s with
  | .sample => do return { o with sample := ← fill o.sample (some value) }
  | .output => do return { o with output := ← fill o.output (path? value) }
  | .config => do return { o with config := ← fill o.config (path? value) }
  | .iteration => do return { o with iteration := ← fill o.iteration (word32? value) }
  | .format => do return { o with format := ← fill o.format (format? value) }

/-- Sets a flag. -/
def setFlag (o : Options) (f : Flag) : Option Options :=
  match f with
  | .strict => if o.strict then none else some { o with strict := true }
  | .noLeftSafety => if o.noLeftSafety then none else some { o with noLeftSafety := true }
  | .noRightSafety => if o.noRightSafety then none else some { o with noRightSafety := true }
  | .injectBlanks => if o.injectBlanks then none else some { o with injectBlanks := true }
  | .verbose => if o.verbose then none else some { o with verbose := true }

/-- Sets the file. -/
def setFile (o : Options) (path : String) : Option Options := do
  return { o with file := ← fill o.file (path? path) }

/-! ## Reading arguments -/

/-- Whether an argument can be the value of the option in front of it. -/
def isValue (arg : String) : Bool :=
  match arg.toList with
  | '-' :: _ :: _ => false
  | _ => true

/-- An option that was read, and the one that still waits for its value, if there is one. -/
structure Read where
  options : Options
  waiting : Option Setting := none

/-- Reads a long option behind its dashes. -/
def readLong (o : Options) (body : List Char) : Option Read :=
  let name := String.ofList (body.takeWhile (· ≠ '='))
  match long? name, body.dropWhile (· ≠ '=') with
  | some (.inl s), '=' :: value => (o.set s (String.ofList value)).map (⟨·, none⟩)
  | some (.inl s), _ => some ⟨o, some s⟩
  | some (.inr f), [] => (o.setFlag f).map (⟨·, none⟩)
  | _, _ => none

/-- Reads joined short options behind their dash. -/
def readShort (o : Options) : List Char → Option Read
  | [] => some ⟨o, none⟩
  | letter :: rest =>
    match short? letter with
    | some (.inr f) => (o.setFlag f).bind fun o => readShort o rest
    | some (.inl s) =>
      match rest with
      | [] => some ⟨o, some s⟩
      | '=' :: value | value => (o.set s (String.ofList value)).map (⟨·, none⟩)
    | none => none

/-- Reads an option. -/
def readOption (o : Options) (arg : String) : Option Read :=
  match arg.toList with
  | '-' :: '-' :: body => readLong o body
  | '-' :: letters => readShort o letters
  | _ => none

/-- Reads arguments. -/
def readAll (o : Options) : List String → Option Options
  | [] => some o
  | "--" :: files => files.foldlM setFile o
  | [arg] =>
    if isValue arg then o.setFile arg
    else
      match readOption o arg with
      | some ⟨o, none⟩ => some o
      | _ => none
  | arg :: next :: args =>
    if isValue arg then (o.setFile arg).bind fun o => readAll o (next :: args)
    else
      match readOption o arg with
      | some ⟨o, none⟩ => readAll o (next :: args)
      | some ⟨o, some s⟩ =>
        if isValue next then (o.set s next).bind fun o => readAll o args else none
      | none => none

/-- Reads the arguments of the command, or refuses them. A file and a sample exclude each other. -/
def ofArgs? (args : List String) : Option Options := do
  let o ← readAll {} args
  if o.file.isSome && o.sample.isSome then none else some o

/-- Applies the options to settings. -/
def override (o : Options) (c : Config) : Config :=
  { iteration := o.iteration.getD c.iteration
    mode := if o.strict then .strict else c.mode
    safety := ⟨c.safety.left && !o.noLeftSafety, c.safety.right && !o.noRightSafety⟩
    placeholder := if o.injectBlanks then some Symbol.placeholder else c.placeholder }

end Options
end OneTape.CommandLine
