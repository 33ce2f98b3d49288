import Mathlib.Data.List.Nodup
import ScipRuby.Common.IgnorePatterns

namespace Common.FileOps

abbrev Path := List UInt8

def dot : UInt8 := 0x2E

-- The last place of a byte.
def rfind (byte : UInt8) : Path → Option Nat
  | [] => none
  | b :: rest => ((rfind byte rest).map (· + 1)).or (if b = byte then some 0 else none)

def hasAllowedExtension (path : Path) (extensions : List Path) : Bool :=
  match rfind dot path with
  | none => false
  | some dotLocation => extensions.contains (path.drop dotLocation)

-- The error codes of directory_iterator. The first two are told apart.
inductive Errno where
  | ENOENT
  | ENOTDIR
  | other (value : Int)
deriving DecidableEq

-- What the iterator finds at a path, and its entries by their file names. A
-- link to a directory is a directory here, with is_symlink set.
mutual
inductive Contents where
  | unreadable (ec : Errno)
  | readable (entries : Entries)
inductive Entries where
  | nil
  | file (name : Path) (rest : Entries)
  | directory (name : Path) (is_symlink : Bool) (contents : Contents) (rest : Entries)
end

def Contents.ec : Contents → Option Errno
  | .unreadable ec => some ec
  | .readable _ => none

-- The iterator of a directory that did not open is at its end.
def Contents.entries : Contents → Entries
  | .unreadable _ => .nil
  | .readable entries => entries

def slashed (path : Path) : Path := if path = [] ∨ path.getLast? = some slash then path else path ++ [slash]

-- entry.path()
def join (path name : Path) : Path := slashed path ++ name

inductive SorbetException where
  | FileNotFoundException (message : List UInt8)
  | FileNotDirException
deriving DecidableEq

-- The arguments of appendFilesInDir, with the size of the worker pool.
structure Options where
  basePath : Path
  extensions : List Path
  workersSize : Nat
  recursive : Bool
  absoluteIgnorePatterns : List IgnorePattern
  relativeIgnorePatterns : List IgnorePattern

namespace Options
variable (o : Options)

def numWorkers : Nat := max o.workersSize 1

-- The search returns for every path that an operating system allows: isFileIgnored_spec.
def ignores (path : Path) : Bool :=
  (isFileIgnored o.basePath path o.absoluteIgnorePatterns o.relativeIgnorePatterns).getD false

-- The entries that the loop does not continue over.
def lists (path : Path) : Bool := hasAllowedExtension path o.extensions && !o.ignores path
def enters (is_symlink : Bool) (path : Path) : Bool := o.recursive && !is_symlink && !o.ignores path

def vanished (path : Path) (ec : Errno) : Bool := path ≠ o.basePath && (ec = .ENOENT || ec = .ENOTDIR)

end Options

def couldNotOpen (path : Path) : SorbetException :=
  .FileNotFoundException ("Couldn't open directory `".toUTF8.toList ++ path ++ "`".toUTF8.toList)

def exceptionFor (path : Path) (ec : Errno) : SorbetException :=
  if ec = .ENOTDIR then .FileNotDirException else couldNotOpen path

-- The files to be listed below a path, and the exceptions that its
-- directories raise.
mutual
def Contents.files (o : Options) (path : Path) : Contents → List Path
  | .unreadable _ => []
  | .readable entries => entries.files o path
def Entries.files (o : Options) (path : Path) : Entries → List Path
  | .nil => []
  | .file name rest => (if o.lists (join path name) then [join path name] else []) ++ rest.files o path
  | .directory name is_symlink contents rest =>
    (if o.enters is_symlink (join path name) then contents.files o (join path name) else []) ++ rest.files o path
end

mutual
def Contents.failures (o : Options) (path : Path) : Contents → List SorbetException
  | .unreadable ec => if o.vanished path ec then [] else [exceptionFor path ec]
  | .readable entries => entries.failures o path
def Entries.failures (o : Options) (path : Path) : Entries → List SorbetException
  | .nil => []
  | .file _ rest => rest.failures o path
  | .directory name is_symlink contents rest =>
    (if o.enters is_symlink (join path name) then contents.failures o (join path name) else []) ++ rest.failures o path
end

def Entries.names : Entries → List Path
  | .nil => []
  | .file name rest => name :: rest.names
  | .directory name _ _ rest => name :: rest.names

def FileName (name : Path) : Prop := name ≠ [] ∧ slash ∉ name

-- No name stands twice in one directory.
mutual
def Contents.Named : Contents → Prop
  | .unreadable _ => True
  | .readable entries => entries.Named
def Entries.Named : Entries → Prop
  | .nil => True
  | .file name rest => FileName name ∧ name ∉ rest.names ∧ rest.Named
  | .directory name _ contents rest => FileName name ∧ name ∉ rest.names ∧ contents.Named ∧ rest.Named
end

-- A finite directory tree.
structure DirectoryTree where
  contents : Contents
  named : contents.Named

variable {path name other file : Path} {o : Options}

theorem slashed_join (named : FileName name) : slashed (join path name) = join path name ++ [slash] := by
  obtain ⟨filled,noSlash⟩ := named
  obtain ⟨front,last,rfl⟩ := (List.eq_nil_or_concat name).resolve_left filled
  have ends : last ≠ slash := by
    rintro rfl
    exact noSlash (by simp)
  unfold slashed join
  rw [if_neg]
  simp [ends]

-- The file of a name or one below the directory of that name.
def Under (path name file : Path) : Prop := ∃ tail, file = join path name ++ tail ∧ (tail = [] ∨ tail.head? = some slash)

theorem first_component {tail : Path} (named : FileName name) (next : tail = [] ∨ tail.head? = some slash) :
    (name ++ tail).takeWhile (· ≠ slash) = name := by
  have own : ∀ byte ∈ name, decide (byte ≠ slash) = true := by
    intro byte member
    apply decide_eq_true
    rintro rfl
    exact named.2 member
  rw [List.takeWhile_append_of_pos own]
  cases tail with
  | nil => exact List.append_nil name
  | cons byte tail =>
    obtain rfl : byte = slash := by simpa using next
    simp

theorem Under.unique (named : FileName name) (named' : FileName other) (under : Under path name file)
    (under' : Under path other file) : name = other := by
  obtain ⟨tail,rfl,next⟩ := under
  obtain ⟨tail',same,next'⟩ := under'
  have rest : name ++ tail = other ++ tail' := by
    unfold join at same
    rw [List.append_assoc,List.append_assoc] at same
    exact List.append_cancel_left same
  rw [← first_component named next,rest,first_component named' next']

theorem under_self : Under path name (join path name) := ⟨[],(List.append_nil _).symm,.inl rfl⟩

theorem under_within (named : FileName name) (within : slashed (join path name) <+: file) : Under path name file := by
  obtain ⟨rest,rfl⟩ := within
  rw [slashed_join named,List.append_assoc]
  exact ⟨slash :: rest,rfl,.inr rfl⟩

theorem Under.within (under : Under path name file) : slashed path <+: file := by
  obtain ⟨tail,rfl,_⟩ := under
  unfold join
  rw [List.append_assoc]
  exact List.prefix_append _ _

theorem Entries.named_of_mem : ∀ {entries : Entries}, entries.Named → ∀ name ∈ entries.names, FileName name
  | .nil,_,_,member => absurd member List.not_mem_nil
  | .file _ rest,named,name,member => by
    obtain ⟨first,_,named⟩ := named
    rcases List.mem_cons.mp member with rfl | later
    · exact first
    · exact Entries.named_of_mem named name later
  | .directory _ _ _ rest,named,name,member => by
    obtain ⟨first,_,_,named⟩ := named
    rcases List.mem_cons.mp member with rfl | later
    · exact first
    · exact Entries.named_of_mem named name later

theorem mem_guarded {condition : Bool} {found : List Path} (member : file ∈ if condition then found else []) : file ∈ found := by
  cases condition with
  | true => exact member
  | false => exact absurd member List.not_mem_nil

mutual
theorem Contents.files_within : ∀ {contents : Contents} {path : Path}, contents.Named →
    ∀ file ∈ contents.files o path, slashed path <+: file
  | .unreadable _,_,_,_,member => absurd member List.not_mem_nil
  | .readable entries,_,named,file,member => by
    obtain ⟨_,_,under⟩ := Entries.files_under named file member
    exact under.within
theorem Entries.files_under : ∀ {entries : Entries} {path : Path}, entries.Named →
    ∀ file ∈ entries.files o path, ∃ name ∈ entries.names, Under path name file
  | .nil,_,_,_,member => absurd member List.not_mem_nil
  | .file name rest,path,named,file,member => by
    rcases List.mem_append.mp member with here | later
    · obtain rfl := List.mem_singleton.mp (mem_guarded here)
      exact ⟨name,List.mem_cons_self,under_self⟩
    · obtain ⟨other,listed,under⟩ := Entries.files_under named.2.2 file later
      exact ⟨other,List.mem_cons_of_mem _ listed,under⟩
  | .directory name _ contents rest,path,named,file,member => by
    rcases List.mem_append.mp member with here | later
    · have within := Contents.files_within named.2.2.1 file (mem_guarded here)
      exact ⟨name,List.mem_cons_self,under_within named.1 within⟩
    · obtain ⟨other,listed,under⟩ := Entries.files_under named.2.2.2 file later
      exact ⟨other,List.mem_cons_of_mem _ listed,under⟩
end

theorem nodup_guarded {condition : Bool} {found : List Path} (nodup : found.Nodup) :
    (if condition then found else []).Nodup := by
  cases condition with
  | true => exact nodup
  | false => exact List.nodup_nil

-- A file below one name of a directory is below no other.
theorem not_later {rest : Entries} (named : FileName name) (fresh : name ∉ rest.names) (distinct : rest.Named)
    (under : Under path name file) : file ∉ rest.files o path := by
  intro later
  obtain ⟨other,listed,under'⟩ := Entries.files_under distinct file later
  have same := under.unique named (Entries.named_of_mem distinct other listed) under'
  exact fresh (same ▸ listed)

mutual
theorem Contents.files_nodup : ∀ {contents : Contents} {path : Path}, contents.Named → (contents.files o path).Nodup
  | .unreadable _,_,_ => List.nodup_nil
  | .readable _,_,named => Entries.files_nodup named
theorem Entries.files_nodup : ∀ {entries : Entries} {path : Path}, entries.Named → (entries.files o path).Nodup
  | .nil,_,_ => List.nodup_nil
  | .file name rest,path,named => by
    apply List.nodup_append'.mpr
    refine ⟨nodup_guarded (List.nodup_singleton _),Entries.files_nodup named.2.2,?_⟩
    intro file here later
    obtain rfl := List.mem_singleton.mp (mem_guarded here)
    exact not_later named.1 named.2.1 named.2.2 under_self later
  | .directory name is_symlink contents rest,path,named => by
    obtain ⟨first,fresh,within,distinct⟩ := named
    apply List.nodup_append'.mpr
    refine ⟨nodup_guarded (Contents.files_nodup within),Entries.files_nodup distinct,?_⟩
    intro file here later
    have under := under_within first (Contents.files_within within file (mem_guarded here))
    exact not_later first fresh distinct under later
end

end Common.FileOps
