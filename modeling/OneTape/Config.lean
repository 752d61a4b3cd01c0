import OneTape.Table.Extension

/-!
# Settings

The settings of a compilation: the iteration that the head markers carry, whether gaps in the rules
are errors, which ends of the tapes are extended, and the symbol that stands for a blank in inputs.
-/

namespace OneTape

/-- How tuples of symbols that no rule of a state reads are treated. -/
inductive Mode
  /-- The one-tape machine halts on them, as the source machine does. -/
  | normal
  /-- They are errors. -/
  | strict
deriving DecidableEq, Inhabited

/-- The settings of a compilation. -/
structure Config where
  /-- The number in the head markers. Compiling a compiled machine needs a fresh one. -/
  iteration : Nat := 1
  mode : Mode := .normal
  safety : Safety := ⟨true, true⟩
  /-- The input symbol that stands for a blank, if there is one. -/
  placeholder : Option Symbol := none
deriving DecidableEq, Inhabited

/-- What is wrong with settings. -/
inductive ConfigError
  /-- The text is no settings text. -/
  | unreadable
  | zeroIteration
  | badPlaceholder (placeholder : Symbol)
  /-- The placeholder is a symbol of the machine, or would have to be escaped. -/
  | placeholderClash (placeholder : Symbol) (machine : String)
deriving DecidableEq

namespace ConfigError

/-- The wording of a settings error. -/
def message : ConfigError → String
  | unreadable => "TOML parse error"
  | zeroIteration => "iteration must be at least 1"
  | badPlaceholder p => "'" ++ p.text ++ "' cannot be used as a placeholder"
  | placeholderClash p machine =>
    "placeholder '" ++ p.text ++ "' clashes with the tape alphabet of " ++ machine

end ConfigError

namespace Config

/-- Whether a symbol can stand for a blank. -/
def isPlaceholder (s : Symbol) : Bool :=
  !s.isReserved && s != Symbol.blank && !s.text.isEmpty

/-- Accepts settings whose iteration is positive and whose placeholder can be one. -/
def validate (c : Config) : Except ConfigError Unit :=
  if c.iteration = 0 then
    .error .zeroIteration
  else
    match c.placeholder with
    | some p => if isPlaceholder p then .ok () else .error (.badPlaceholder p)
    | none => .ok ()

end Config
end OneTape
