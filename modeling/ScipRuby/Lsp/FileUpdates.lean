import Mathlib.Data.List.AList
import Mathlib.Data.List.Dedup
import ScipRuby.Lib.Patches

namespace Lsp
open Patches

-- The hash of a name, WithoutUniqueNameHash.
abbrev NameHash := UInt32

structure SymbolHash where
  nameHash : NameHash
  symbolHash : UInt32
  deriving DecidableEq,Repr

-- The default `<=>` compares the members in their order.
def SymbolHash.lt (a b : SymbolHash) : Bool :=
  decide (a.nameHash < b.nameHash) || (a.nameHash == b.nameHash && decide (a.symbolHash < b.symbolHash))

-- What the fast path decision reads of a FileHash.
structure FileHash where
  hierarchyHash : UInt32
  retypecheckableSymbolHashes : List SymbolHash
  usages : List NameHash
  deriving DecidableEq,Repr

-- LocalSymbolTableHashes::isInvalidParse
def FileHash.isInvalidParse (hash : FileHash) : Bool := hash.hierarchyHash == 2

inductive SourceType where
  | notYetRead
  | payloadGeneration
  | payload
  | normal
  deriving DecidableEq,Repr

inductive StrictLevel where
  | internal
  | none_
  | ignore
  | false_
  | true_
  | strict
  | strong
  | max
  | autogenerated
  | stdlib
  deriving DecidableEq,Repr

-- `hash` is the FileHash that indexing computes from the source, and `strictLevel` the
-- level that is decided before.
structure File where
  path : String
  sourceType : SourceType := .normal
  sourceSize : Nat := 0
  sourceHash : UInt32 := 0
  isOpenInClient : Bool := false
  strictLevel : StrictLevel := .false_
  hash : FileHash := ⟨1,[],[]⟩
  deriving DecidableEq,Repr

def File.isPayload (file : File) : Bool := file.sourceType == .payloadGeneration || file.sourceType == .payload

-- The part of the path after the last slash.
def isPackagePath (path : String) : Bool := (path.toList.splitOn '/').getLast? == some "__package.rb".toList

-- An ignored file is not even parsed.
def File.hasPackageRbPath (file : File) : Bool := isPackagePath file.path && file.strictLevel != .ignore

-- A file table without the null file of slot 0: the file of id i + 1 stands at
-- position i, and a FileRef is such a position.
abbrev FileTable := List File
abbrev FileRef := Nat

def findFileByPath (gs : FileTable) (path : String) : Option FileRef := locate File.path gs path

abbrev EvictedFiles := AList (fun _ : FileRef => File)

inductive TypecheckingPath where
  | fast
  | slow
  deriving DecidableEq,Repr

-- The parallel vectors updatedFileRefs and updatedFiles are one list of pairs.
structure LSPFileUpdates where
  updated : Patch File := []
  fastPathExtraFiles : List FileRef := []
  epoch : UInt32 := 0
  editCount : UInt32 := 0
  committedEditCount : UInt32 := 0
  preemptionsExpected : Int := 0
  typecheckingPath : TypecheckingPath := .slow
  fastPathUseIncrementalNamer : Bool := false
  hasNewFiles : Bool := false
  canceledSlowPath : Bool := false
  cancellationExpected : Bool := false
  deriving DecidableEq,Repr

namespace LSPFileUpdates

def updatedFileRefs (updates : LSPFileUpdates) : List FileRef := keys updates.updated
def updatedFiles (updates : LSPFileUpdates) : List File := updates.updated.map Prod.snd

def mergeOlder (this older : LSPFileUpdates) : LSPFileUpdates where
  __ := this
  editCount := this.editCount + older.editCount
  committedEditCount := this.committedEditCount + older.committedEditCount
  hasNewFiles := this.hasNewFiles || older.hasNewFiles
  cancellationExpected := this.cancellationExpected || older.cancellationExpected
  preemptionsExpected := this.preemptionsExpected + older.preemptionsExpected
  updated := overlay this.updated older.updated
  typecheckingPath := .slow

-- The fields that the source does not copy take their defaults.
def copy (this : LSPFileUpdates) : LSPFileUpdates where
  epoch := this.epoch
  editCount := this.editCount
  committedEditCount := this.committedEditCount
  typecheckingPath := this.typecheckingPath
  hasNewFiles := this.hasNewFiles
  updated := this.updated
  cancellationExpected := this.cancellationExpected
  preemptionsExpected := this.preemptionsExpected

end LSPFileUpdates

-- std::set_symmetric_difference on sorted ranges; the fuel covers every comparison.
def symmetricDifference : (fuel : Nat) → List SymbolHash → List SymbolHash → List SymbolHash
  | 0,_,_ => []
  | _,[],new => new
  | _,old,[] => old
  | fuel+1,a :: old,b :: new =>
    if a.lt b then a :: symmetricDifference fuel old (b :: new)
    else if b.lt a then b :: symmetricDifference fuel (a :: old) new
    else symmetricDifference fuel old new

def changedNameHashes (old new : FileHash) : List NameHash :=
  let a := old.retypecheckableSymbolHashes
  let b := new.retypecheckableSymbolHashes
  (symmetricDifference (a.length + b.length + 1) a b).map SymbolHash.nameHash

def sortAndDedupe (hashes : List NameHash) : List NameHash := (hashes.insertionSort (· ≤ ·)).dedup

-- One round of the loop of sortedIntersects; on sorted ranges lower_bound skips the
-- smaller values. An iterator is equal to where it stood when nothing was skipped.
def sortedIntersectsLoop : (fuel : Nat) → (a b : List NameHash) → (prevEqual : Bool) → Bool
  | 0,_,_,_ => false
  | _,_,[],_ => false
  | fuel+1,a,b :: bs,prevEqual =>
    let aNext := a.dropWhile (· < b)
    let aEqual := aNext.length == a.length
    if aEqual && prevEqual then true
    else
      match aNext with
      | [] => false
      | x :: _ =>
        let bNext := (b :: bs).dropWhile (· < x)
        let bEqual := bNext.length == (b :: bs).length
        if bEqual && aEqual then true
        else sortedIntersectsLoop fuel aNext bNext bEqual

def sortedIntersects (a b : List NameHash) : Bool := sortedIntersectsLoop (a.length + b.length + 1) a b false

structure LSPConfiguration where
  disableFastPath : Bool := false
  lspMaxFilesOnFastPath : Nat := 50
  sorbetPackages : Bool := false
  -- gs.packageDB().enabled() of the indexer
  packageDBEnabled : Bool := false
  deriving DecidableEq,Repr

def File.isPackage (config : LSPConfiguration) (file : File) : Bool := file.hasPackageRbPath && config.packageDBEnabled

structure FastPathFilesToTypecheckResult where
  totalChanged : Nat := 0
  useIncrementalNamer : Bool := false
  extraFiles : List FileRef := []
  deriving DecidableEq,Repr

-- The file whose hashes an updated file is compared with; `at` throws when the map
-- is not empty and lacks the file.
def oldFileOf (gs : FileTable) (evictedFiles : EvictedFiles) (fref : FileRef) : Option File :=
  if evictedFiles.entries.isEmpty then gs[fref]? else evictedFiles.lookup fref

-- The refs of the changed files and the name hashes of the changed symbols.
def changedFilesAndSymbols (config : LSPConfiguration) (gs : FileTable) (evictedFiles : EvictedFiles) :
    List File → Option (List FileRef × List NameHash)
  | [] => some ([],[])
  | file :: files => do
    let (refs,hashes) ← changedFilesAndSymbols config gs evictedFiles files
    if config.sorbetPackages && file.isPackage config then some (refs,hashes)
    else
      match findFileByPath gs file.path with
      | none => some (refs,hashes)
      | some fref => do
        let old ← oldFileOf gs evictedFiles fref
        some (if fref ∈ refs then refs else fref :: refs,changedNameHashes old.hash file.hash ++ hashes)

-- Whether the loop over the file table adds the file at `ref`.
def mentionsChange (config : LSPConfiguration) (changedFiles : List FileRef) (hashes : List NameHash) (ref : FileRef)
    (file : File) : Bool :=
  !changedFiles.contains ref && !(config.sorbetPackages && file.isPackage config) && !file.isPayload &&
    sortedIntersects hashes file.hash.usages

-- The loop over the file table from `ref` on, with its short circuit.
def addExtraFiles (config : LSPConfiguration) (changedFiles : List FileRef) (hashes : List NameHash) :
    (ref : FileRef) → List File → FastPathFilesToTypecheckResult → FastPathFilesToTypecheckResult
  | _,[],result => result
  | ref,file :: files,result =>
    if mentionsChange config changedFiles hashes ref file then
      let result := {result with extraFiles := result.extraFiles ++ [ref],totalChanged := result.totalChanged + 1}
      if result.totalChanged > 2 * config.lspMaxFilesOnFastPath then result
      else addExtraFiles config changedFiles hashes (ref + 1) files result
    else addExtraFiles config changedFiles hashes (ref + 1) files result

def fastPathFilesToTypecheck (config : LSPConfiguration) (gs : FileTable) (updatedFiles : List File)
    (evictedFiles : EvictedFiles) : Option FastPathFilesToTypecheckResult := do
  let (changedFiles,changedSymbolNameHashes) ← changedFilesAndSymbols config gs evictedFiles updatedFiles
  if changedSymbolNameHashes.isEmpty then some {totalChanged := changedFiles.length}
  else
    some (addExtraFiles config changedFiles (sortAndDedupe changedSymbolNameHashes) 0 gs
      {totalChanged := changedFiles.length,useIncrementalNamer := true})

end Lsp
