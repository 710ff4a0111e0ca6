import Mathlib.Tactic

/-! Absolute, lexically normalized paths as in `utils/absolute-path` on a POSIX host.

`absolutize` and the expansion of `~` read the process's current directory and
home directory, so the conversion takes both as a `PathContext`. -/

namespace OpenInterpreter.AbsolutePath

open List

def NormalComponent (component : String) : Prop :=
  component ≠ "" ∧ component ≠ "." ∧ component ≠ ".."

instance (component : String) : Decidable (NormalComponent component) :=
  inferInstanceAs (Decidable (_ ∧ _ ∧ _))

structure AbsolutePathBuf where
  components : List String
  normal : ∀ component ∈ components, NormalComponent component
  deriving DecidableEq

def root : AbsolutePathBuf := ⟨[], by simp⟩

def AbsolutePathBuf.fileName (path : AbsolutePathBuf) : Option String :=
  path.components.getLast?

structure PathContext where
  currentDir : Option AbsolutePathBuf
  homeDirectory : Option AbsolutePathBuf

def pushComponent (path : AbsolutePathBuf) (component : String) : AbsolutePathBuf :=
  if kept : NormalComponent component then
    ⟨path.components ++ [component], by
      intro other member
      rcases mem_append.mp member with old | new
      · exact path.normal other old
      · rw [mem_singleton.mp new]
        exact kept⟩
  else if component = ".." then
    ⟨path.components.dropLast, fun other member =>
      path.normal other (mem_of_mem_dropLast member)⟩
  else path

def splitPath (raw : List Char) : List String :=
  (raw.splitOn '/').map String.ofList

def normalizePath (base : AbsolutePathBuf) (raw : List Char) : AbsolutePathBuf :=
  (splitPath raw).foldl pushComponent base

/-- `AbsolutePathBuf::from_absolute_path`. Despite its name it resolves a
relative path against the current directory; it fails only without one. -/
def fromAbsolutePath (context : PathContext) (raw : String) : Option AbsolutePathBuf :=
  match raw.toList, context.homeDirectory with
  | ['~'], some home => some home
  | '~' :: '/' :: rest, some home => some (normalizePath home rest)
  | '/' :: rest, _ => some (normalizePath root rest)
  | chars, _ => context.currentDir.map (fun base => normalizePath base chars)

def executablePathLookupKey (path : AbsolutePathBuf) : Option String := path.fileName

end OpenInterpreter.AbsolutePath
