import ProxmoxBackup.RestorePaths
import ProxmoxBackup.LittleEndian
import Mathlib.Data.List.Sort

/-! What a file system reader lists of a volume: the names as its directory
records have them. The reader modelled is gui/imagefs/ext.go, from a folder's
bytes on; inodes and the contents they lead to are a parameter. -/

namespace ProxmoxBackup.ImageListing

open DynamicChunks RestorePaths

structure Entry where
  path : Text
  isDir : Bool
  symlink : Bool
  linkTarget : Text
  record : Nat
  deriving DecidableEq

inductive ExtKind where
  | dir
  | reg
  | symlink
  | other

/-- `content` and `link` are what content and readLink return, none an error. -/
structure ExtInode where
  num : Nat
  kind : ExtKind
  inlineData : Bool
  content : Option Bytes
  link : Option Text

structure Ext where
  blockSize : Nat
  filetype : Bool
  inode : Nat → Option ExtInode

def extRootInode : Nat := 2

def lostFound : Text := [0x6c, 0x6f, 0x73, 0x74, 0x2b, 0x66, 0x6f, 0x75, 0x6e, 0x64]

/-- Directory records from offset `o` on; every record moves it forward, so the
fuel is the length of `b`. -/
def parseDir (v : Ext) (inlineData : Bool) (b : Bytes) : Nat → Nat → List (Nat × Text)
  | 0, _ => []
  | fuel + 1, o =>
      if b.length < o + 8 then []
      else
        let ino := LittleEndian.decode ((b.drop o).take 4)
        let recLen := LittleEndian.decode ((b.drop (o + 4)).take 2)
        let nameLen := LittleEndian.decode ((b.drop (o + 6)).take (if v.filetype then 1 else 2))
        if recLen < 8 ∨ b.length < o + recLen then
          -- A damaged record: on to the next block.
          let next := (o / v.blockSize + 1) * v.blockSize
          if inlineData ∨ next ≤ o then [] else parseDir v inlineData b fuel next
        else
          let name := (b.drop (o + 8)).take nameLen
          let rest := parseDir v inlineData b fuel (o + recLen)
          if ino ≠ 0 ∧ 0 < nameLen ∧ o + 8 + nameLen ≤ b.length then (ino, name) :: rest else rest

/-- A folder's entries and the folders among them. -/
def Ext.readDir (v : Ext) (path : Text) (ino : Nat) :
    Option (List Entry × List (Text × Nat)) := do
  let folder ← v.inode ino
  let data ← folder.content
  let start := if folder.inlineData then 4 else 0
  let names := if data.length < start then []
    else parseDir v folder.inlineData (data.drop start) data.length 0
  let found := names.filterMap fun (child, name) =>
    if name = [dot] ∨ name = dotdot ∨ (ino = extRootInode ∧ name = lostFound) then none
    else
      (v.inode child).bind fun inode =>
        let p := if path = [] then name else path ++ slash :: name
        match inode.kind with
        | .dir => some (Entry.mk p true false [] inode.num, [(p, inode.num)])
        | .reg => some (Entry.mk p false false [] inode.num, [])
        | .symlink => some (Entry.mk p false true (inode.link.getD []) inode.num, [])
        | .other => none
  some (found.map Prod.fst, found.flatMap Prod.snd)

/-- Folders of one level, then those below them. A folder seen before is not
read again; one that cannot be read is left out, unless it is the root. -/
def Ext.levels (v : Ext) : Nat → List (Text × Nat) → List Nat → Option (List Entry)
  | 0, _, _ => some []
  | _ + 1, [], _ => some []
  | fuel + 1, first :: more, seen =>
      let results := (first :: more).map fun d => (d.2, v.readDir d.1 d.2)
      if results.any fun r => r.1 == extRootInode && r.2.isNone then none
      else
        let read := results.filterMap Prod.snd
        let following := (read.flatMap Prod.snd).foldl (fun (s : List (Text × Nat) × List Nat) d =>
          if d.2 ∈ s.2 then s else (s.1 ++ [d], d.2 :: s.2)) ([], seen)
        (v.levels fuel following.1 following.2).map (read.flatMap Prod.fst ++ ·)

/-- Folders are followed 4096 deep. -/
def Ext.list (v : Ext) : Option (List Entry) :=
  (v.levels 4097 [([], extRootInode)] [extRootInode]).map
    (List.insertionSort fun first second => first.path ≤ second.path)

/-- One directory record, without padding. -/
def dirent (ino : Nat) (name : Text) : Bytes :=
  LittleEndian.encode 4 ino ++ LittleEndian.encode 2 (8 + name.length) ++
    LittleEndian.encode 1 name.length ++ [1] ++ name

end ProxmoxBackup.ImageListing
