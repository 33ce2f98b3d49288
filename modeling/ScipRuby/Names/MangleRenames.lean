import Mathlib.Logic.Function.Basic

namespace MangleRenames

abbrev ClassOrModuleRef := Nat
abbrev MethodRef := Nat

-- Names are interned: two are the same when they are built the same way. A unique name of
-- another kind than MangleRename counts only as such.
inductive NameRef where
  | ordinary (id : Nat)
  | unique (id : Nat)
  | mangleRename (original : NameRef) (num : Nat)
  deriving DecidableEq,Repr

def NameRef.isMangled : NameRef → Bool
  | .mangleRename _ _ => true
  | _ => false

structure Method where
  name : NameRef
  owner : ClassOrModuleRef
  deriving DecidableEq,Repr

-- uniqueNames has the names of the kind MangleRename that were entered, for all classes.
structure GlobalState where
  uniqueNames : List (NameRef × Nat)
  members : ClassOrModuleRef → NameRef → Option MethodRef
  methods : List Method

namespace GlobalState
variable (gs : GlobalState)

def initial : GlobalState := ⟨[],fun _ _ => none,[]⟩

def lookupNameUnique (original : NameRef) (num : Nat) : Option NameRef :=
  if (original,num) ∈ gs.uniqueNames then some (.mangleRename original num) else none

def freshNameUnique (original : NameRef) (num : Nat) : GlobalState :=
  if (original,num) ∈ gs.uniqueNames then gs else {gs with uniqueNames := gs.uniqueNames ++ [(original,num)]}

def setMember (owner : ClassOrModuleRef) (name : NameRef) (method : Option MethodRef) : GlobalState :=
  {gs with members := Function.update gs.members owner (Function.update (gs.members owner) name method)}

def enterMethodSymbol (owner : ClassOrModuleRef) (name : NameRef) : GlobalState :=
  match gs.members owner name with
  | some _ => gs
  | none => {gs.setMember owner name (some gs.methods.length) with methods := gs.methods ++ [⟨name,owner⟩]}

end GlobalState

open GlobalState

-- The loop of the source has no bound; nothing is returned when the fuel runs out.
def nextMangledName (owner : ClassOrModuleRef) (origName : NameRef) : Nat → Nat → GlobalState → Option (NameRef × GlobalState)
  | 0,_,_ => none
  | fuel + 1,collisionCount,gs =>
    let name := .mangleRename origName collisionCount
    let gs := gs.freshNameUnique origName collisionCount
    if (gs.members owner name).isSome then nextMangledName owner origName fuel (collisionCount + 1) gs
    else some (name,gs)

namespace GlobalState
variable (gs : GlobalState)

-- Nothing where an ENFORCE fails.
def mangleRenameMethod (fuel : Nat) (what : MethodRef) (origName : NameRef) : Option GlobalState :=
  match gs.methods[what]? with
  | none => none
  | some data =>
    if gs.members data.owner origName = some what ∧ data.name = origName then
      (nextMangledName data.owner origName fuel 1 gs).map fun (name,gs) =>
        {(gs.setMember data.owner origName none).setMember data.owner name (some what) with
          methods := gs.methods.set what ⟨name,data.owner⟩}
    else none

-- The while loop of findRenamedSymbol, where res is the member found last.
def findLastRenamed (owner : ClassOrModuleRef) (name : NameRef) : Nat → Nat → Option MethodRef → Option (Option MethodRef)
  | _,_,none => some none
  | 0,_,some _ => none
  | fuel + 1,num,some res =>
    match gs.lookupNameUnique name (num + 1) with
    | none => some (some res)
    | some lookupName => findLastRenamed owner name fuel (num + 1) (gs.members owner lookupName)

-- some none is noSymbol.
def findRenamedSymbol (fuel : Nat) (owner : ClassOrModuleRef) (sym : MethodRef) : Option (Option MethodRef) :=
  match gs.methods[sym]? with
  | none => some none
  | some data =>
    match data.name with
    | .unique _ => some none
    | .mangleRename original num =>
      if num = 1 then some none
      else some ((gs.lookupNameUnique original (num - 1)).bind (gs.members owner))
    | .ordinary id =>
      gs.findLastRenamed owner (.ordinary id) fuel 1 ((gs.lookupNameUnique (.ordinary id) 1).bind (gs.members owner))

end GlobalState

-- The methods that a class renamed away from a name, the latest last.
abbrev History := ClassOrModuleRef → NameRef → List MethodRef

def History.push (history : History) (owner : ClassOrModuleRef) (name : NameRef) (what : MethodRef) : History :=
  Function.update history owner (Function.update (history owner) name (history owner name ++ [what]))

-- Methods are entered and renamed under the names of their definitions, which are not mangled.
inductive Reached : GlobalState → History → Prop where
  | initial : Reached initial fun _ _ => []
  | enter {gs : GlobalState} {history : History} (owner : ClassOrModuleRef) (name : NameRef) :
      Reached gs history → name.isMangled = false → Reached (gs.enterMethodSymbol owner name) history
  | rename {gs next : GlobalState} {history : History} {data : Method} {fuel : Nat} (what : MethodRef) :
      Reached gs history → gs.methods[what]? = some data → data.name.isMangled = false →
      gs.mangleRenameMethod fuel what data.name = some next → Reached next (history.push data.owner data.name what)

-- Slot k + 1 of a name holds the method renamed after k others, and the name table has
-- as many mangled names as the class with the most renames.
structure Tracked (gs : GlobalState) (history : History) : Prop where
  slots : ∀ owner name k, gs.members owner (.mangleRename name (k + 1)) = (history owner name)[k]?
  table : ∀ name k, (name,k + 1) ∈ gs.uniqueNames ↔ ∃ owner, k < (history owner name).length
  named : ∀ owner name method, gs.members owner name = some method → gs.methods[method]? = some ⟨name,owner⟩

section Loops
variable {gs next : GlobalState} {owner : ClassOrModuleRef} {name found : NameRef} {items : List MethodRef} {fuel j : Nat}

theorem mem_freshNameUnique (num : Nat) (entry : NameRef × Nat) :
    entry ∈ (gs.freshNameUnique name num).uniqueNames ↔ entry ∈ gs.uniqueNames ∨ entry = (name,num) := by
  unfold freshNameUnique
  split
  · rename_i present
    constructor
    · exact .inl
    · rintro (old | rfl)
      · exact old
      · exact present
  · simp

theorem freshNameUnique_members (num : Nat) : (gs.freshNameUnique name num).members = gs.members := by
  unfold freshNameUnique
  split <;> rfl

theorem freshNameUnique_methods (num : Nat) : (gs.freshNameUnique name num).methods = gs.methods := by
  unfold freshNameUnique
  split <;> rfl

-- What the loop returns: the first free slot, with all names up to it entered.
structure NextMangled (gs : GlobalState) (name : NameRef) (from_ count : Nat) (found : NameRef) (next : GlobalState) : Prop where
  found : found = .mangleRename name (count + 1)
  members : next.members = gs.members
  methods : next.methods = gs.methods
  names : ∀ entry, entry ∈ next.uniqueNames ↔
    entry ∈ gs.uniqueNames ∨ ∃ k, from_ ≤ k ∧ k ≤ count ∧ entry = (name,k + 1)

theorem nextMangledName_spec (slots : ∀ k, gs.members owner (.mangleRename name (k + 1)) = items[k]?) (start : j ≤ items.length)
    (result : nextMangledName owner name fuel (j + 1) gs = some (found,next)) :
    NextMangled gs name j items.length found next := by
  induction fuel generalizing j gs with
  | zero => cases result
  | succ fuel ih =>
    rw [nextMangledName,freshNameUnique_members,slots j] at result
    split at result
    · rename_i taken
      have more : j < items.length := by simpa using taken
      have rest := ih (by rw [freshNameUnique_members]; exact slots) more result
      refine ⟨rest.found,rest.members.trans (freshNameUnique_members _),rest.methods.trans (freshNameUnique_methods _),?_⟩
      intro entry
      rw [rest.names,mem_freshNameUnique]
      constructor
      · rintro ((old | rfl) | ⟨k,low,high,rfl⟩)
        · exact .inl old
        · exact .inr ⟨j,Nat.le_refl _,start,rfl⟩
        · exact .inr ⟨k,Nat.le_of_succ_le low,high,rfl⟩
      · rintro (old | ⟨k,low,high,rfl⟩)
        · exact .inl (.inl old)
        · rcases Nat.eq_or_lt_of_le low with rfl | later
          · exact .inl (.inr rfl)
          · exact .inr ⟨k,later,high,rfl⟩
    · rename_i free
      have last : j = items.length := by
        apply Nat.le_antisymm start
        simpa using free
      cases result
      refine ⟨by rw [last],freshNameUnique_members _,freshNameUnique_methods _,fun entry => ?_⟩
      rw [mem_freshNameUnique]
      constructor
      · rintro (old | rfl)
        · exact .inl old
        · exact .inr ⟨j,Nat.le_refl _,start,rfl⟩
      · rintro (old | ⟨k,low,high,rfl⟩)
        · exact .inl old
        · exact .inr (by rw [Nat.le_antisymm (last ▸ high) low])

theorem nextMangledName_isSome (slots : ∀ k, gs.members owner (.mangleRename name (k + 1)) = items[k]?)
    (start : j ≤ items.length) (enough : items.length < j + fuel) : (nextMangledName owner name fuel (j + 1) gs).isSome = true := by
  induction fuel generalizing j gs with
  | zero => exact absurd enough (Nat.not_lt.mpr start)
  | succ fuel ih =>
    rw [nextMangledName,freshNameUnique_members,slots j]
    split
    · rename_i taken
      apply ih
      · rw [freshNameUnique_members]
        exact slots
      · exact Nat.succ_le_of_lt (by simpa using taken)
      · omega
    · rfl

end Loops

section Tracking
variable {gs next : GlobalState} {history : History} {owner : ClassOrModuleRef} {name : NameRef}

theorem setMember_members (method : Option MethodRef) (owner' : ClassOrModuleRef) (name' : NameRef) :
    (gs.setMember owner name method).members owner' name' =
      if owner' = owner ∧ name' = name then method else gs.members owner' name' := by
  unfold setMember
  dsimp only
  by_cases same : owner' = owner
  · subst same
    rw [Function.update_self,Function.update_apply]
    simp
  · rw [Function.update_of_ne same,if_neg fun both => same both.1]

theorem history_push (what : MethodRef) (owner' : ClassOrModuleRef) (name' : NameRef) :
    history.push owner name what owner' name' =
      if owner' = owner ∧ name' = name then history owner name ++ [what] else history owner' name' := by
  unfold History.push
  by_cases same : owner' = owner
  · subst same
    rw [Function.update_self,Function.update_apply]
    simp
  · rw [Function.update_of_ne same,if_neg fun both => same both.1]

theorem tracked_initial : Tracked initial fun _ _ => [] := by
  refine ⟨fun _ _ _ => rfl,fun name k => ?_,fun _ _ _ found => ?_⟩
  · constructor
    · intro member
      cases member
    · rintro ⟨_,less⟩
      cases less
  · cases found

theorem Tracked.enter (tracked : Tracked gs history) (plain : name.isMangled = false) :
    Tracked (gs.enterMethodSymbol owner name) history := by
  unfold enterMethodSymbol
  split
  · exact tracked
  refine ⟨fun owner' name' k => ?_,tracked.table,fun owner' name' method found => ?_⟩
  · rw [← tracked.slots]
    refine (setMember_members _ _ _).trans (if_neg ?_)
    rintro ⟨_,rfl⟩
    cases plain
  · have entry := (setMember_members _ _ _).symm.trans found
    split at entry
    · rename_i same
      cases entry
      rw [same.1,same.2]
      exact List.getElem?_concat_length
    · have old := tracked.named _ _ _ entry
      exact (List.getElem?_append_left (List.getElem?_eq_some_iff.mp old).1).trans old

-- What a rename has done, once its checks have passed.
theorem mangleRenameMethod_parts {data : Method} {fuel : Nat} {what : MethodRef} (method : gs.methods[what]? = some data)
    (renamed : gs.mangleRenameMethod fuel what data.name = some next) :
    gs.members data.owner data.name = some what ∧
    ∃ found mid, nextMangledName data.owner data.name fuel 1 gs = some (found,mid) ∧
      next = {(mid.setMember data.owner data.name none).setMember data.owner found (some what) with
        methods := mid.methods.set what ⟨found,data.owner⟩} := by
  unfold mangleRenameMethod at renamed
  rw [method] at renamed
  dsimp only at renamed
  split at renamed
  · rename_i checked
    obtain ⟨⟨found,mid⟩,result,equal⟩ := Option.map_eq_some_iff.mp renamed
    exact ⟨checked.1,found,mid,result,equal.symm⟩
  · cases renamed

theorem Tracked.rename {data : Method} {fuel : Nat} {what : MethodRef} (tracked : Tracked gs history)
    (method : gs.methods[what]? = some data) (plain : data.name.isMangled = false)
    (renamed : gs.mangleRenameMethod fuel what data.name = some next) :
    Tracked next (history.push data.owner data.name what) := by
  obtain ⟨present,found,mid,result,rfl⟩ := mangleRenameMethod_parts method renamed
  obtain ⟨rfl,members,methods,names⟩ := nextMangledName_spec (tracked.slots data.owner data.name) (Nat.zero_le _) result
  refine ⟨fun owner' name' k => ?_,fun name' k => ?_,fun owner' name' other found => ?_⟩
  · have unmangled : NameRef.mangleRename name' (k + 1) ≠ data.name := by
      intro equal
      rw [← equal] at plain
      cases plain
    have erased : (mid.setMember data.owner data.name none).members owner' (.mangleRename name' (k + 1))
        = (history owner' name')[k]? := by
      rw [setMember_members,members,tracked.slots]
      exact if_neg fun both => unmangled both.2
    refine (setMember_members _ _ _).trans ?_
    rw [erased,history_push]
    by_cases same : owner' = data.owner ∧ name' = data.name
    · rw [if_pos same]
      obtain ⟨rfl,rfl⟩ := same
      rcases Nat.lt_trichotomy k (history data.owner data.name).length with less | equal | more
      · rw [List.getElem?_append_left less]
        exact if_neg fun both => absurd both.2 (by simp; omega)
      · rw [equal,List.getElem?_concat_length]
        exact if_pos ⟨rfl,rfl⟩
      · rw [if_neg fun both => absurd both.2 (by simp; omega),List.getElem?_eq_none (by omega),
          List.getElem?_eq_none (by simp; omega)]
    · rw [if_neg same]
      exact if_neg fun both => same ⟨both.1,(NameRef.mangleRename.inj both.2).1⟩
  · refine (names _).trans ?_
    rw [tracked.table]
    constructor
    · rintro (⟨owner',less⟩ | ⟨k',_,high,equal⟩)
      · refine ⟨owner',?_⟩
        rw [history_push]
        split
        · rename_i same
          rw [same.1,same.2] at less
          rw [List.length_append]
          omega
        · exact less
      · cases equal
        refine ⟨data.owner,?_⟩
        rw [history_push,if_pos ⟨rfl,rfl⟩,List.length_append]
        exact Nat.lt_succ_of_le high
    · rintro ⟨owner',less⟩
      rw [history_push] at less
      split at less
      · rename_i same
        rw [List.length_append] at less
        exact .inr ⟨k,Nat.zero_le _,Nat.le_of_lt_succ less,by rw [same.2]⟩
      · exact .inl ⟨owner',less⟩
  · have entry := (setMember_members _ _ _).symm.trans found
    show (mid.methods.set what _)[other]? = _
    rw [methods]
    split at entry
    · rename_i same
      cases entry
      rw [same.1,same.2]
      exact List.getElem?_set_self (List.getElem?_eq_some_iff.mp method).1
    · rw [setMember_members] at entry
      split at entry
      · cases entry
      · rename_i away
        rw [members] at entry
        have old := tracked.named _ _ _ entry
        have distinct : what ≠ other := by
          rintro rfl
          cases method.symm.trans old
          exact away ⟨rfl,rfl⟩
        rw [List.getElem?_set_ne distinct]
        exact old

theorem Reached.tracked (reached : Reached gs history) : Tracked gs history := by
  induction reached with
  | initial => exact tracked_initial
  | enter owner name _ plain ih => exact ih.enter plain
  | rename what _ method plain renamed ih => exact ih.rename method plain renamed

end Tracking

section Undoing
variable {gs : GlobalState} {history : History} {owner : ClassOrModuleRef} {name : NameRef} {sym : MethodRef} {fuel : Nat}

theorem Tracked.lookup_iff (tracked : Tracked gs history) (k : Nat) :
    gs.lookupNameUnique name (k + 1) = some (.mangleRename name (k + 1)) ↔ ∃ other, k < (history other name).length := by
  rw [← tracked.table]
  unfold lookupNameUnique
  split
  · simp [*]
  · simp [*]

theorem Tracked.lookup_own (tracked : Tracked gs history) (k : Nat) :
    (gs.lookupNameUnique name (k + 1)).bind (gs.members owner) = (history owner name)[k]? := by
  unfold lookupNameUnique
  split
  · exact tracked.slots owner name k
  · rename_i absent
    rw [tracked.table] at absent
    apply Eq.symm
    apply List.getElem?_eq_none
    exact Nat.le_of_not_lt fun less => absent ⟨owner,less⟩

-- From a slot that is taken the search goes up to the last one, and past it when the name
-- table has a name there.
theorem Tracked.findLastRenamed_eq (tracked : Tracked gs history) {j : Nat} (less : j < (history owner name).length)
    (enough : (history owner name).length ≤ j + fuel) :
    gs.findLastRenamed owner name fuel (j + 1) (history owner name)[j]? =
      some (if (name,(history owner name).length + 1) ∈ gs.uniqueNames then none else (history owner name).getLast?) := by
  induction fuel generalizing j with
  | zero => exact absurd enough (Nat.not_le.mpr less)
  | succ fuel ih =>
    rw [List.getElem?_eq_getElem less,findLastRenamed]
    rcases Nat.eq_or_lt_of_le (Nat.succ_le_of_lt less) with last | more
    · unfold lookupNameUnique
      rw [show j + 1 + 1 = (history owner name).length + 1 from congrArg Nat.succ last]
      split
      · rename_i present
        split at present
        · cases present
        · rename_i absent
          rw [if_neg absent,List.getLast?_eq_getElem?,← last]
          exact congrArg some (List.getElem?_eq_getElem less).symm
      · rename_i present
        split at present
        · rename_i known
          cases present
          rw [if_pos known,tracked.slots,List.getElem?_eq_none (Nat.le_refl _)]
          cases fuel <;> rfl
        · cases present
    · rw [(tracked.lookup_iff (j + 1)).mpr ⟨owner,more⟩]
      dsimp only
      rw [tracked.slots]
      exact ih more (by omega)

theorem Tracked.findRenamedSymbol_ordinary (tracked : Tracked gs history) {id : Nat} {owner' : ClassOrModuleRef}
    (method : gs.methods[sym]? = some ⟨.ordinary id,owner'⟩) (enough : (history owner (.ordinary id)).length ≤ fuel) :
    gs.findRenamedSymbol fuel owner sym = some (if (.ordinary id,(history owner (.ordinary id)).length + 1) ∈ gs.uniqueNames
      then none else (history owner (.ordinary id)).getLast?) := by
  unfold findRenamedSymbol
  rw [method]
  dsimp only
  rw [tracked.lookup_own 0]
  rcases Nat.eq_zero_or_pos (history owner (.ordinary id)).length with none | some
  · rw [List.eq_nil_of_length_eq_zero none]
    cases fuel <;> simp [findLastRenamed]
  · exact tracked.findLastRenamed_eq some (by omega)

theorem Tracked.findRenamedSymbol_renamed (tracked : Tracked gs history) {n : Nat}
    (renamed : (history owner name)[n]? = some sym) :
    gs.findRenamedSymbol fuel owner sym = some (if n = 0 then none else (history owner name)[n - 1]?) := by
  have method := tracked.named owner (.mangleRename name (n + 1)) sym ((tracked.slots owner name n).trans renamed)
  unfold findRenamedSymbol
  rw [method]
  dsimp only
  cases n with
  | zero => rfl
  | succ n =>
    rw [if_neg (by simp),if_neg (Nat.succ_ne_zero n)]
    exact congrArg some (tracked.lookup_own n)

end Undoing

theorem findRenamedSymbol_undoes_iff (gs : GlobalState) (history : History) (reached : Reached gs history)
    (owner : ClassOrModuleRef) (sym : MethodRef) :
    (∀ id owner' fuel, gs.methods[sym]? = some ⟨.ordinary id,owner'⟩ → (history owner (.ordinary id)).length ≤ fuel →
      (gs.findRenamedSymbol fuel owner sym = some (history owner (.ordinary id)).getLast? ↔
        history owner (.ordinary id) = [] ∨
          ∀ other, (history other (.ordinary id)).length ≤ (history owner (.ordinary id)).length)) ∧
    ∀ name n fuel, (history owner name)[n]? = some sym →
      gs.findRenamedSymbol fuel owner sym = some (if n = 0 then none else (history owner name)[n - 1]?) := by
  have tracked := reached.tracked
  refine ⟨fun id owner' fuel method enough => ?_,fun name n fuel renamed => tracked.findRenamedSymbol_renamed renamed⟩
  rw [tracked.findRenamedSymbol_ordinary method enough,Option.some_inj]
  by_cases known : (.ordinary id,(history owner (.ordinary id)).length + 1) ∈ gs.uniqueNames
  · rw [if_pos known,eq_comm,List.getLast?_eq_none_iff]
    constructor
    · exact .inl
    · rintro (none | atMost)
      · exact none
      · obtain ⟨other,less⟩ := (tracked.table _ _).mp known
        exact absurd (atMost other) (Nat.not_le.mpr less)
  · rw [if_neg known]
    apply iff_of_true rfl
    right
    intro other
    apply Nat.le_of_not_lt
    exact fun less => known ((tracked.table _ _).mpr ⟨other,less⟩)

theorem mangleRenameMethod_isSome {gs : GlobalState} {history : History} (reached : Reached gs history)
    {owner : ClassOrModuleRef} {name : NameRef} {what : MethodRef} {fuel : Nat} (present : gs.members owner name = some what)
    (enough : (history owner name).length < fuel) : (gs.mangleRenameMethod fuel what name).isSome = true := by
  have tracked := reached.tracked
  unfold mangleRenameMethod
  rw [tracked.named _ _ _ present]
  dsimp only
  rw [if_pos ⟨present,rfl⟩,Option.isSome_map]
  exact nextMangledName_isSome (tracked.slots owner name) (Nat.zero_le _) (by omega)

section Samples

def rename (gs : GlobalState) (what : MethodRef) (name : NameRef) : GlobalState := (gs.mangleRenameMethod 9 what name).getD gs

theorem reached_rename {gs : GlobalState} {history : History} (reached : Reached gs history) (what : MethodRef) (data : Method)
    (method : gs.methods[what]? = some data) (plain : data.name.isMangled = false)
    (works : (gs.mangleRenameMethod 9 what data.name).isSome = true) :
    Reached (rename gs what data.name) (history.push data.owner data.name what) := by
  obtain ⟨next,renamed⟩ := Option.isSome_iff_exists.mp works
  unfold rename
  rw [renamed]
  exact .rename what reached method plain renamed

-- The class 1 redefines the method once.
def redefinedOnce : GlobalState :=
  (rename (initial.enterMethodSymbol 1 (.ordinary 0)) 0 (.ordinary 0)).enterMethodSymbol 1 (.ordinary 0)

def redefinedHistory : History := History.push (fun _ _ => []) 1 (.ordinary 0) 0

theorem redefinedOnce_reached : Reached redefinedOnce redefinedHistory := by
  apply Reached.enter _ _ _ rfl
  exact reached_rename (.enter 1 (.ordinary 0) .initial rfl) 0 ⟨.ordinary 0,1⟩ rfl rfl (by decide)

theorem findRenamedSymbol_redefined : redefinedOnce.findRenamedSymbol 1 1 1 = some (some 0) :=
  ((findRenamedSymbol_undoes_iff redefinedOnce redefinedHistory redefinedOnce_reached 1 1).1 0 1 1 rfl (by decide)).mpr
    (.inr fun other => by
      unfold redefinedHistory
      rw [history_push,history_push]
      split <;> decide)

-- The class 2 redefines a method of that name twice.
def redefinedTwice : GlobalState :=
  let gs := rename (redefinedOnce.enterMethodSymbol 2 (.ordinary 0)) 2 (.ordinary 0)
  (rename (gs.enterMethodSymbol 2 (.ordinary 0)) 3 (.ordinary 0)).enterMethodSymbol 2 (.ordinary 0)

theorem findRenamedSymbol_forgets : ∃ history, Reached redefinedTwice history ∧ history 1 (.ordinary 0) = [0] ∧
    redefinedTwice.methods[1]? = some ⟨.ordinary 0,1⟩ ∧ redefinedTwice.findRenamedSymbol 9 1 1 = some none := by
  have once := reached_rename (.enter 2 (.ordinary 0) redefinedOnce_reached rfl) 2 ⟨.ordinary 0,2⟩ rfl rfl (by decide)
  have twice := reached_rename (.enter 2 (.ordinary 0) once rfl) 3 ⟨.ordinary 0,2⟩ rfl rfl (by decide)
  exact ⟨_,.enter 2 (.ordinary 0) twice rfl,rfl,rfl,by decide⟩

end Samples

end MangleRenames
