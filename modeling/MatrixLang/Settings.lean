import MatrixLang.Environment

/-!
# Settings

What a program starts from: whether the constants are there, and the policy of its image
filters.
-/

namespace MatrixLang

/-- Settings of a program. -/
structure Settings where
  /-- Whether the constants are variables from the start. -/
  constants : Bool
  /-- How image filters read cells outside the image. -/
  missing : MissingPolicy
deriving DecidableEq, Repr, Inhabited

/-- The settings where none are given. -/
def Settings.standard : Settings :=
  ⟨true, .standard⟩

/-- The constants: pi, Euler's number and some small integers. -/
def constants : List (String × Float) :=
  [("pi", Float.ofBits 0x400921fb54442d18), ("e", Float.ofBits 0x4005bf0a8b145769),
    ("ZERO", 0), ("ONE", 1), ("TWO", 2)]

/-- The environment that a program with given settings starts in. -/
def Environment.initial (settings : Settings) : Environment :=
  let start := Environment.empty settings.missing
  if settings.constants then
    constants.foldl (fun env (name, value) => env.set name (.scalar value)) start
  else start

end MatrixLang
