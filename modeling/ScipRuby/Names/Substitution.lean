import ScipRuby.Names.Built

namespace Names
open GlobalState
variable {α : Type}

-- What can go wrong while names are carried over: the target table fails, an
-- entry of the substitution is read before it is defined, a table of the source
-- is read outside its bounds, or names are made from one another in a circle.
inductive Fault where
  | table (failure : Failure)
  | undefined
  | outside
  | circular
  deriving DecidableEq,Repr

def expect (fault : Fault) (value : Option α) : Except Fault α := value.elim (.error fault) .ok

def ofTable (result : Except Failure α) : Except Fault α := result.mapError .table

structure NameSubstitution where
  utf8NameSubstitution : List NameRef
  constantNameSubstitution : List NameRef
  uniqueNameSubstitution : List NameRef

namespace NameSubstitution

def empty : NameSubstitution := ⟨[],[],[]⟩

def table (sub : NameSubstitution) : NameKind → List NameRef
  | .utf8 => sub.utf8NameSubstitution
  | .unique => sub.uniqueNameSubstitution
  | .constant => sub.constantNameSubstitution

def emplaceBack (sub : NameSubstitution) (kind : NameKind) (ref : NameRef) : NameSubstitution :=
  match kind with
  | .utf8 => {sub with utf8NameSubstitution := sub.utf8NameSubstitution ++ [ref]}
  | .unique => {sub with uniqueNameSubstitution := sub.uniqueNameSubstitution ++ [ref]}
  | .constant => {sub with constantNameSubstitution := sub.constantNameSubstitution ++ [ref]}

-- None is a read of an entry that is not there.
def substitute (sub : NameSubstitution) (from_ : NameRef) : Option NameRef :=
  from_.kind.bind fun kind => (sub.table kind)[from_.unsafeTableIndex]?

end NameSubstitution

-- A name with another original.
def Name.renamed (content : Name) (original : NameRef) : Name :=
  match content with
  | .utf8 name => .utf8 name
  | .unique name => .unique {name with original}
  | .constant _ => .constant ⟨original⟩

-- What is entered in the target for a name of the source.
def NameSubstitution.rename (sub : NameSubstitution) (content : Name) : Except Fault Name :=
  match content.original with
  | none => .ok content
  | some original => (expect .undefined (sub.substitute original)).map content.renamed

-- The substitution as far as it goes, and the target.
structure Building where
  sub : NameSubstitution
  to_ : GlobalState

section Eager
variable (xxh32 : List UInt8 → UInt32)

-- One turn of the three loops: the entry for a name of the source.
def define (b : Building) (content : Name) : Except Fault Building := do
  let content' ← b.sub.rename content
  let (ref,to_) ← ofTable (b.to_.enterName xxh32 content')
  .ok ⟨b.sub.emplaceBack content.kind ref,to_⟩

-- The loop over the constants of the source that have no entry yet, up to a bound.
def defineConstants (from_ : GlobalState) (b : Building) (stop : Nat) : Except Fault Building :=
  let start := b.sub.constantNameSubstitution.length
  (List.range' start (stop - start)).foldlM
    (fun b i => (expect .outside from_.constantNames.entries[i]?).bind fun cnst => define xxh32 b (.constant cnst)) b

def defineUnique (from_ : GlobalState) (b : Building) (nm : UniqueName) : Except Fault Building := do
  let b ←
    if nm.original.kind = some .constant ∧ b.sub.constantNameSubstitution.length ≤ nm.original.unsafeTableIndex then
      defineConstants xxh32 from_ b (nm.original.unsafeTableIndex + 1)
    else .ok b
  define xxh32 b (.unique nm)

-- The constructor; what the semantic extensions merge is outside the substitution.
def NameSubstitution.build (from_ to_ : GlobalState) : Except Fault Building := do
  let b ← from_.utf8Names.entries.foldlM (fun b nm => define xxh32 b (.utf8 nm)) ⟨.empty,to_⟩
  let b ← from_.uniqueNames.entries.foldlM (defineUnique xxh32 from_) b
  defineConstants xxh32 from_ b from_.constantNames.size

end Eager

structure LazyNameSubstitution where
  nameSubstitution : List (NameRef × NameRef)
  toGS : GlobalState

namespace LazyNameSubstitution
variable (xxh32 : List UInt8 → UInt32) (fromGS : GlobalState)

-- The empty name has an entry from the start.
def start (toGS : GlobalState) : LazyNameSubstitution := ⟨[(.noName,.noName)],toGS⟩

section Define
variable (substitute : LazyNameSubstitution → NameRef → Except Fault (NameRef × LazyNameSubstitution))

def rename (lazy : LazyNameSubstitution) (content : Name) : Except Fault (Name × LazyNameSubstitution) :=
  match content.original with
  | none => .ok (content,lazy)
  | some original => (substitute lazy original).map fun (original,lazy) => (content.renamed original,lazy)

def defineName (lazy : LazyNameSubstitution) (from_ : NameRef) : Except Fault (NameRef × LazyNameSubstitution) := do
  let content ← expect .outside (fromGS.name from_)
  let (content',lazy) ← lazy.rename substitute content
  let (to_,toGS) ← ofTable (lazy.toGS.enterName xxh32 content')
  .ok (to_,⟨(from_,to_) :: lazy.nameSubstitution,toGS⟩)

end Define

def substituteWithin : Nat → LazyNameSubstitution → NameRef → Except Fault (NameRef × LazyNameSubstitution)
  | 0,_,_ => .error .circular
  | fuel + 1,lazy,from_ =>
    match lazy.nameSubstitution.lookup from_ with
    | some to_ => .ok (to_,lazy)
    | none => defineName xxh32 fromGS (substituteWithin fuel) lazy from_

-- substitute for two different global states. No chain of originals is longer
-- than the table of the source.
def substitute (lazy : LazyNameSubstitution) (from_ : NameRef) : Except Fault (NameRef × LazyNameSubstitution) :=
  substituteWithin xxh32 fromGS (fromGS.namesUsedTotal + 1) lazy from_

-- One request after the other.
def substituteAll (lazy : LazyNameSubstitution) : List NameRef → Except Fault (List NameRef × LazyNameSubstitution)
  | [] => .ok ([],lazy)
  | from_ :: requests => do
    let (to_,lazy) ← lazy.substitute xxh32 fromGS from_
    let (others,lazy) ← lazy.substituteAll requests
    .ok (to_ :: others,lazy)

end LazyNameSubstitution

-- A name spelled out, down to its text.
inductive NameTree where
  | utf8 (utf8 : List UInt8)
  | unique (uniqueNameKind : UniqueNameKind) (num : UInt32) (original : NameTree)
  | constant (original : NameTree)
  deriving DecidableEq,Repr

inductive Spells (gs : GlobalState) : NameRef → NameTree → Prop where
  | utf8 {ref : NameRef} {name : UTF8Name} (at_ : gs.name ref = some (.utf8 name)) : Spells gs ref (.utf8 name.utf8)
  | unique {ref : NameRef} {name : UniqueName} {tree : NameTree} (at_ : gs.name ref = some (.unique name))
      (original : Spells gs name.original tree) : Spells gs ref (.unique name.uniqueNameKind name.num tree)
  | constant {ref : NameRef} {name : ConstantName} {tree : NameTree} (at_ : gs.name ref = some (.constant name))
      (original : Spells gs name.original tree) : Spells gs ref (.constant tree)

section Spelling
variable {gs gs' : GlobalState} {ref ref' : NameRef} {content : Name} {tree tree' : NameTree} {xxh32 : List UInt8 → UInt32}
  {age : NameRef → Nat}

def Keeps (gs gs' : GlobalState) : Prop := ∀ ref content, gs.name ref = some content → gs'.name ref = some content

theorem Keeps.trans {middle : GlobalState} (first : Keeps gs middle) (second : Keeps middle gs') : Keeps gs gs' :=
  fun ref content at_ => second ref content (first ref content at_)

theorem Logged.keeps {log : Log} (logged : Logged gs gs' log) : Keeps gs gs' :=
  fun ref content at_ => (logged ref content).mpr (.inl at_)

theorem Spells.keep (spells : Spells gs ref tree) (keeps : Keeps gs gs') : Spells gs' ref tree := by
  induction spells with
  | utf8 at_ => exact .utf8 (keeps _ _ at_)
  | unique at_ _ ih => exact .unique (keeps _ _ at_) ih
  | constant at_ _ ih => exact .constant (keeps _ _ at_) ih

theorem Spells.tree_eq (first : Spells gs ref tree) (second : Spells gs ref tree') : tree = tree' := by
  induction first generalizing tree' with
  | utf8 at_ =>
    cases second with
    | utf8 at_' => rw [at_] at at_'; cases at_'; rfl
    | unique at_' => rw [at_] at at_'; cases at_'
    | constant at_' => rw [at_] at at_'; cases at_'
  | unique at_ _ ih =>
    cases second with
    | utf8 at_' => rw [at_] at at_'; cases at_'
    | unique at_' original => rw [at_] at at_'; cases at_'; rw [ih original]
    | constant at_' => rw [at_] at at_'; cases at_'
  | constant at_ _ ih =>
    cases second with
    | utf8 at_' => rw [at_] at at_'; cases at_'
    | unique at_' => rw [at_] at at_'; cases at_'
    | constant at_' original => rw [at_] at at_'; cases at_'; rw [ih original]

-- In an interned table the spelling tells the name.
theorem Spells.ref_eq (interned : Interned xxh32 gs) (first : Spells gs ref tree) (second : Spells gs ref' tree) :
    ref = ref' := by
  induction first generalizing ref' with
  | @utf8 _ name at_ =>
    generalize whole : NameTree.utf8 name.utf8 = t at second
    cases second with
    | @utf8 _ name' at_' =>
      cases name
      cases name'
      cases whole
      exact interned.distinct _ _ _ at_ at_'
    | unique => cases whole
    | constant => cases whole
  | @unique _ name tree at_ _ ih =>
    generalize whole : NameTree.unique name.uniqueNameKind name.num tree = t at second
    cases second with
    | utf8 => cases whole
    | @unique _ name' _ at_' original =>
      obtain ⟨kind,num,rfl⟩ := NameTree.unique.inj whole
      have same := ih original
      cases name
      cases name'
      cases kind
      cases num
      cases same
      exact interned.distinct _ _ _ at_ at_'
    | constant => cases whole
  | @constant _ name tree at_ _ ih =>
    generalize whole : NameTree.constant tree = t at second
    cases second with
    | utf8 => cases whole
    | unique => cases whole
    | @constant _ name' _ at_' original =>
      cases whole
      have same := ih original
      cases name
      cases name'
      cases same
      exact interned.distinct _ _ _ at_ at_'

-- Every name is spelled: the originals lead back to a text.
theorem Aged.spells (aged : Aged gs age) (at_ : gs.name ref = some content) : ∃ tree, Spells gs ref tree := by
  induction earlier : age ref using Nat.strongRecOn generalizing ref content with
  | _ n ih =>
  subst earlier
  have original : ∀ o, content.original = some o → ∃ tree, Spells gs o tree := by
    intro o made
    obtain ⟨there,before⟩ := aged.backward ref content o at_ made
    obtain ⟨c,there⟩ := Option.isSome_iff_exists.mp there
    exact ih _ before there rfl
  cases content with
  | utf8 name => exact ⟨_,.utf8 at_⟩
  | unique name =>
    obtain ⟨tree,spells⟩ := original _ rfl
    exact ⟨_,.unique at_ spells⟩
  | constant name =>
    obtain ⟨tree,spells⟩ := original _ rfl
    exact ⟨_,.constant at_ spells⟩

end Spelling

end Names
