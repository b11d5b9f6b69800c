import ProxmoxBackup.LexicalPath
import ProxmoxBackup.DynamicChunks

/-! Where a restore puts things: the path functions of gui/restore_inline.go and
pbscommon/pxar_reader.go. A path is its bytes, "/" between its names, as the
archives and the browse tree have it; `System` is the one that restores. -/

namespace ProxmoxBackup.RestorePaths

open DynamicChunks LexicalPath

abbrev Text := Bytes

def slash : UInt8 := 0x2f
def backslash : UInt8 := 0x5c
def colon : UInt8 := 0x3a
def dot : UInt8 := 0x2e

inductive System where
  | linux
  | windows
  deriving DecidableEq

/-- What filepath takes for a separator. -/
def System.lexis : System → Lexis UInt8
  | .linux => ⟨fun c => c == slash, dot⟩
  | .windows => ⟨fun c => c == slash || c == backslash, dot⟩

/-- strings.ReplaceAll(p, "\\", "/") -/
def forward (p : Text) : Text := p.map fun c => if c = backslash then slash else c

/-- strings.Trim(p, "/") -/
def trimSlashes (p : Text) : Text :=
  ((p.dropWhile (· == slash)).reverse.dropWhile (· == slash)).reverse

def normalizeIncludes (includes : List Text) : List Text :=
  (includes.map fun p => trimSlashes (forward p)).filter (· ≠ [])

/-- `inc + "/"` begins `path`. -/
def under (inc path : Text) : Bool := (inc ++ [slash]).isPrefixOf path

/-- strings.TrimPrefix(path, prefix+"/") -/
def trimUnder (inc path : Text) : Text :=
  if under inc path then path.drop (inc.length + 1) else path

def pathMatches (path : Text) (includes : List Text) : Bool :=
  includes.isEmpty || includes.any fun inc => path == inc || under inc path || under path inc

def pathSelected (path : Text) (includes : List Text) : Bool :=
  includes.isEmpty || includes.any fun inc => path == inc || under inc path

def dotdot : Text := [dot, dot]

def isUnsafeArchivePath (p : Text) : Bool :=
  match forward p with
  | [] => false
  | first :: rest =>
      first == slash || rest.head? == some colon ||
        ((first :: rest).splitOn slash).any (· == dotdot)

def parentDir (archivePath : Text) : Text :=
  match archivePath.reverse.dropWhile (· ≠ slash) with
  | [] => []
  | _ :: above => above.reverse

/-- The part two lists of names share at their beginning. -/
def shared : List Text → List Text → List Text
  | first :: rest, other :: more => if first = other then first :: shared rest more else []
  | _, _ => []

def commonAncestorDir : List Text → Text
  | [] => []
  | [single] => parentDir single
  | first :: rest =>
      [slash].intercalate (rest.foldl (fun parts p => shared parts (p.splitOn slash))
        (first.splitOn slash))

inductive Mode where
  | alternateAbs
  | alternateFlat
  deriving DecidableEq

/-- buildPathRewriter for another folder: what is joined to the destination, if
anything. -/
def rewriter (mode : Mode) (includePaths : List Text) (archivePath : Text) : Option Text :=
  match mode with
  | .alternateAbs => some archivePath
  | .alternateFlat =>
      if includePaths.isEmpty then some archivePath
      else
        let top := commonAncestorDir (normalizeIncludes includePaths)
        if archivePath = [] then none
        else if top = [] then some archivePath
        else if archivePath = top then none
        else
          let rel := trimUnder top archivePath
          if rel = archivePath then none else some rel

end ProxmoxBackup.RestorePaths
