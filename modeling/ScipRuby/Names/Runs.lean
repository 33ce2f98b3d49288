import ScipRuby.Names.Enter

namespace Names
open Probing GlobalState NameHash

inductive Call where
  | enterNameUTF8 (nm : List UInt8)
  | enterNameConstant (original : NameRef)
  | freshNameUnique (uniqueNameKind : UniqueNameKind) (original : NameRef) (num : UInt32)
  | expandNames (utf8NameSize constantNameSize uniqueNameSize : UInt32)
  deriving DecidableEq,Repr

def Call.content : Call → Option Name
  | .enterNameUTF8 nm => some (.utf8 ⟨nm⟩)
  | .enterNameConstant original => some (.constant ⟨original⟩)
  | .freshNameUnique uniqueNameKind original num => some (.unique ⟨original,num,uniqueNameKind⟩)
  | .expandNames .. => none

variable (xxh32 : List UInt8 → UInt32)

-- The names a call enters, with the references it gives for them.
abbrev Log := List (Name × NameRef)

def step (gs : GlobalState) : Call → Except Failure (Log × GlobalState)
  | .enterNameUTF8 nm => do
    let (ref,gs) ← gs.enterNameUTF8 xxh32 nm
    .ok ([(.utf8 ⟨nm⟩,ref)],gs)
  | .enterNameConstant original => do
    let (ref,gs) ← gs.enterNameConstant xxh32 original
    .ok ([(.constant ⟨original⟩,ref)],gs)
  | .freshNameUnique uniqueNameKind original num => do
    let (ref,gs) ← gs.freshNameUnique xxh32 uniqueNameKind original num
    .ok ([(.unique ⟨original,num,uniqueNameKind⟩,ref)],gs)
  | .expandNames utf8NameSize constantNameSize uniqueNameSize => do
    let gs ← gs.expandNames utf8NameSize constantNameSize uniqueNameSize
    .ok ([],gs)

def run (gs : GlobalState) : List Call → Except Failure (Log × GlobalState)
  | [] => .ok ([],gs)
  | call :: calls => do
    let (entered,gs) ← step xxh32 gs call
    let (log,gs) ← run gs calls
    .ok (entered ++ log,gs)

-- The sizes of an expandNames call suit the capacities, and a table that has to
-- be doubled leaves a total that a 32-bit hash table can serve.
def Call.Roomy (gs : GlobalState) : Call → Prop
  | .expandNames u c q => gs.Roomy u c q
  | call => ∀ content, call.content = some content → gs.Absent content →
    gs.size content.kind = gs.capacity content.kind → gs.totalCapacity + gs.capacity content.kind ≤ 2 ^ 30

def RoomyRun (gs : GlobalState) : List Call → Prop
  | [] => True
  | call :: calls => call.Roomy gs ∧ ∀ entered gs', step xxh32 gs call = .ok (entered,gs') → RoomyRun gs' calls

-- What the name table promises after the contents `entered` have gone in and the
-- references of `log` have come out.
structure Interns (gs : GlobalState) (entered : List Name) (log : Log) : Prop where
  contents : log.map Prod.fst = entered
  equal_iff : ∀ e ∈ log, ∀ e' ∈ log, e.2 = e'.2 ↔ e.1 = e'.1
  found : ∀ e ∈ log, gs.lookupName xxh32 e.1 = .ok e.2 ∧ e.2 ≠ .noName
  missing : ∀ content, content ∉ entered → gs.lookupName xxh32 content = .ok .noName
  power : ∃ k, gs.namesByHash.length = 2 ^ k
  load : 2 * gs.namesUsedTotal ≤ gs.namesByHash.length
  terminates : ∀ hash pred, ∃ found, NameHash.probe gs.namesByHash hash pred = .ok found

variable {xxh32} {gs gs' : GlobalState} {calls : List Call} {call : Call} {content : Name} {log : Log}

section Steps

def Logged (gs gs' : GlobalState) (log : Log) : Prop :=
  ∀ ref content, gs'.name ref = some content ↔ gs.name ref = some content ∨ (content,ref) ∈ log

theorem run_cons {entered : Log} {middle : GlobalState} (stepped : step xxh32 gs call = .ok (entered,middle))
    (ran : run xxh32 middle calls = .ok (log,gs')) : run xxh32 gs (call :: calls) = .ok (entered ++ log,gs') := by
  simp only [run,stepped,bind,Except.bind,ran]

theorem step_enter (known : call.content = some content) :
    step xxh32 gs call = (gs.enterName xxh32 content).bind (fun (ref,gs) => .ok ([(content,ref)],gs)) := by
  cases call <;> simp only [Call.content,Option.some.injEq,reduceCtorEq] at known <;> subst known <;> rfl

theorem Call.Roomy.enter (roomy : call.Roomy gs) (known : call.content = some content) (absent : gs.Absent content)
    (full : gs.size content.kind = gs.capacity content.kind) : gs.totalCapacity + gs.capacity content.kind ≤ 2 ^ 30 := by
  cases call with
  | expandNames => cases known
  | _ => exact roomy content known absent full

theorem Inserted.logged {ref : NameRef} (inserted : Inserted gs gs' content ref) : Logged gs gs' [(content,ref)] := by
  intro r c
  rw [inserted.names,List.mem_singleton,Prod.mk.injEq]

theorem enterName_logged (interned : Interned xxh32 gs) (sized : Sized gs)
    (roomy : gs.Absent content → gs.size content.kind = gs.capacity content.kind →
      gs.totalCapacity + gs.capacity content.kind ≤ 2 ^ 30) :
    ∃ ref gs', gs.enterName xxh32 content = .ok (ref,gs') ∧ Interned xxh32 gs' ∧ Sized gs' ∧ Logged gs gs' [(content,ref)] := by
  by_cases absent : gs.Absent content
  · by_cases full : gs.size content.kind = gs.capacity content.kind
    · obtain ⟨ref,middle,gs',entered,interned',sized',names,inserted⟩ :=
        interned.enterName_grow sized absent full (roomy absent full)
      refine ⟨ref,gs',entered,interned',inserted.sized sized',?_⟩
      intro r c
      rw [inserted.logged,names]
    · have space : gs.size content.kind < gs.capacity content.kind :=
        Nat.lt_of_le_of_ne (gs.size_le_capacity content.kind) full
      have bound := sized.capacity_le content.kind
      obtain ⟨ref,gs',entered,interned',inserted⟩ := interned.enterName_room sized.room absent space (by omega)
      exact ⟨ref,gs',entered,interned',inserted.sized sized,inserted.logged⟩
  · simp only [GlobalState.Absent,not_forall,not_not] at absent
    obtain ⟨ref,at_⟩ := absent
    refine ⟨ref,gs,interned.enterName_found sized.room at_,interned,sized,?_⟩
    intro r c
    rw [List.mem_singleton,Prod.mk.injEq]
    constructor
    · exact .inl
    · rintro (there | ⟨rfl,rfl⟩)
      · exact there
      · exact at_

theorem step_logged (interned : Interned xxh32 gs) (sized : Sized gs) (roomy : call.Roomy gs) :
    ∃ log gs', step xxh32 gs call = .ok (log,gs') ∧ Interned xxh32 gs' ∧ Sized gs' ∧ Logged gs gs' log ∧
      log.map Prod.fst = call.content.toList := by
  cases known : call.content with
  | some content =>
    obtain ⟨ref,gs',entered,interned',sized',logged⟩ := enterName_logged interned sized (roomy.enter known)
    refine ⟨[(content,ref)],gs',?_,interned',sized',logged,rfl⟩
    rw [step_enter known,entered]
    rfl
  | none =>
    cases call <;> simp only [Call.content,reduceCtorEq] at known
    rename_i u c q
    have room := sized.room
    obtain ⟨gs',grown,interned',expanded⟩ := interned.expandNames (by omega) u c q
    refine ⟨[],gs',?_,interned',expanded.sized sized roomy,?_,rfl⟩
    · rw [step,grown]
      rfl
    · intro ref content
      rw [name_of_contents expanded.contents]
      simp

theorem run_logged (interned : Interned xxh32 gs) (sized : Sized gs) (roomy : RoomyRun xxh32 gs calls) :
    ∃ log gs', run xxh32 gs calls = .ok (log,gs') ∧ Interned xxh32 gs' ∧ Sized gs' ∧ Logged gs gs' log ∧
      log.map Prod.fst = calls.filterMap Call.content := by
  induction calls generalizing gs with
  | nil => exact ⟨[],gs,rfl,interned,sized,by simp [Logged],rfl⟩
  | cons call calls ih =>
    obtain ⟨here,rest⟩ := roomy
    obtain ⟨entered,middle,stepped,interned',sized',first,contents⟩ := step_logged interned sized here
    obtain ⟨log,gs',ran,interned'',sized'',second,contents'⟩ := ih interned' sized' (rest entered middle stepped)
    refine ⟨entered ++ log,gs',?_,interned'',sized'',?_,?_⟩
    · exact run_cons stepped ran
    · intro ref content
      rw [second,first,List.mem_append,or_assoc]
    · rw [List.map_append,contents,contents',List.filterMap_cons]
      cases call.content <;> rfl

end Steps

section Initial

theorem initial_name (ref : NameRef) : GlobalState.initial.name ref = none := by
  cases known : ref.kind with
  | none => simp only [name,known]
  | some kind =>
    rw [name_of_kind known]
    apply List.getElem?_eq_none
    cases kind <;> exact Nat.zero_le _

theorem initial_size (kind : NameKind) : GlobalState.initial.size kind = 0 := by
  cases kind <;> rfl

theorem initial_length : GlobalState.initial.namesByHash.length = 2 ^ 16 := List.length_replicate

theorem interned_empty (xxh32 : List UInt8 → UInt32) (none : ∀ ref, gs.name ref = none) (total : gs.namesUsedTotal = 0)
    {k : Nat} (buckets : gs.namesByHash = List.replicate (2 ^ k) ⟨0,0⟩) : Interned xxh32 gs where
  power := ⟨k,by rw [buckets,List.length_replicate]⟩
  chained := buckets ▸ replicate_chained _
  hashed := by
    intro b member holds
    rw [buckets] at member
    exact absurd member (replicate_absent _ holds)
  stored := by
    intro ref content at_
    rw [none] at at_
    cases at_
  count := by rw [buckets,replicate_count,total]
  distinct := by
    intro ref ref' content at_
    rw [none] at at_
    cases at_

theorem initial_interned (xxh32 : List UInt8 → UInt32) : Interned xxh32 .initial := by
  have buckets : GlobalState.initial.namesByHash = List.replicate (2 ^ 16) ⟨0,0⟩ := rfl
  exact interned_empty xxh32 initial_name rfl buckets

theorem initial_sized : Sized .initial where
  load := by
    rw [initial_length]
    decide
  bound := by
    rw [initial_length]
    decide
  positive := by
    intro kind
    cases kind <;> decide

theorem Logged.mem_iff (logged : Logged .initial gs log) {e : Name × NameRef} : e ∈ log ↔ gs.name e.2 = some e.1 := by
  rw [logged,initial_name]
  simp

end Initial

theorem Interned.interns (interned : Interned xxh32 gs) (sized : Sized gs) (logged : Logged .initial gs log)
    {entered : List Name} (contents : log.map Prod.fst = entered) : Interns xxh32 gs entered log where
  contents := contents
  equal_iff := by
    intro e member e' member'
    rw [logged.mem_iff] at member member'
    constructor
    · intro same
      rw [same,member'] at member
      exact (Option.some.inj member).symm
    · intro same
      rw [same] at member
      exact interned.distinct _ _ _ member member'
  found := by
    intro e member
    rw [logged.mem_iff] at member
    refine ⟨interned.lookupName_found sized.room member,?_⟩
    intro none
    exact name_present member (congrArg NameRef.rawId none)
  missing := by
    intro content missing
    apply interned.lookupName_absent sized.room
    intro ref at_
    have member : (content,ref) ∈ log := logged.mem_iff.mpr at_
    rw [←contents] at missing
    exact missing (List.mem_map_of_mem member)
  power := interned.power
  load := sized.total_le
  terminates := by
    intro hash pred
    obtain ⟨k,power⟩ := interned.power
    have room := sized.room
    obtain ⟨i,j,found,_⟩ := probe_ok power (by rw [interned.count]; omega) hash pred
    exact ⟨_,found⟩

theorem run_interns (xxh32 : List UInt8 → UInt32) (calls : List Call) (roomy : RoomyRun xxh32 .initial calls) :
    ∃ log gs, run xxh32 .initial calls = .ok (log,gs) ∧ Interns xxh32 gs (calls.filterMap Call.content) log := by
  obtain ⟨log,gs,ran,interned,sized,logged,contents⟩ := run_logged (initial_interned xxh32) initial_sized roomy
  exact ⟨log,gs,ran,interned.interns sized logged contents⟩

-- A larger table of strings, asked for with the other capacities as they are.
theorem expandNames_roomy : GlobalState.initial.Roomy 32768 4096 4096 := by
  rw [GlobalState.Roomy,initial_length]
  decide

def Name.enter : Name → Call
  | .utf8 name => .enterNameUTF8 name.utf8
  | .unique name => .freshNameUnique name.uniqueNameKind name.original name.num
  | .constant name => .enterNameConstant name.original

theorem content_enter (content : Name) : content.enter.content = some content := by
  cases content <;> rfl

-- Calls for which the tables have space left are roomy.
theorem roomyRun_space (interned : Interned xxh32 gs) (sized : Sized gs) (names : List Name)
    (space : ∀ kind, gs.size kind + names.length ≤ gs.capacity kind) : RoomyRun xxh32 gs (names.map Name.enter) := by
  induction names generalizing gs with
  | nil => trivial
  | cons content names ih =>
    simp only [List.length_cons] at space
    have here := space content.kind
    refine ⟨?_,fun entered gs' stepped => ?_⟩
    · have roomy : ∀ other, content.enter.content = some other → gs.Absent other →
          gs.size other.kind = gs.capacity other.kind → gs.totalCapacity + gs.capacity other.kind ≤ 2 ^ 30 := by
        intro other known _ full
        have spare := space other.kind
        omega
      cases content <;> exact roomy
    · rw [step_enter (content_enter content)] at stepped
      by_cases absent : gs.Absent content
      · have bound := sized.capacity_le content.kind
        obtain ⟨ref,middle,done_,interned',inserted⟩ := interned.enterName_room sized.room absent (by omega) (by omega)
        rw [done_] at stepped
        cases stepped
        refine ih interned' (inserted.sized sized) fun kind => ?_
        have spare := space kind
        rw [inserted.size,inserted.capacity]
        split <;> omega
      · simp only [GlobalState.Absent,not_forall,not_not] at absent
        obtain ⟨ref,at_⟩ := absent
        rw [interned.enterName_found sized.room at_] at stepped
        cases stepped
        exact ih interned sized fun kind => by have spare := space kind; omega

-- Two strings, one of them twice, a constant and a unique name.
def sampleNames : List Name :=
  [.utf8 ⟨[97]⟩,.utf8 ⟨[98]⟩,.constant ⟨NameRef.make .utf8 0⟩,.utf8 ⟨[97]⟩,.unique ⟨NameRef.make .utf8 1,1,.singleton⟩]

-- Every string has the same hash.
theorem run_interns_expanded :
    ∃ log gs, run (fun _ => 0) .initial (.expandNames 32768 4096 4096 :: sampleNames.map Name.enter) = .ok (log,gs) ∧
      Interns (fun _ => 0) gs sampleNames log := by
  refine run_interns (fun _ => 0) (.expandNames 32768 4096 4096 :: sampleNames.map Name.enter) ⟨expandNames_roomy,?_⟩
  intro entered gs stepped
  obtain ⟨middle,grown,interned,expanded⟩ := (initial_interned fun _ => 0).expandNames (by rw [initial_length]; decide)
    32768 4096 4096
  rw [step,grown] at stepped
  cases stepped
  refine roomyRun_space interned (expanded.sized initial_sized expandNames_roomy) sampleNames fun kind => ?_
  rw [size_of_contents expanded.contents,expanded.capacity,initial_size]
  cases kind <;> decide

section Overfull

-- New names go in one after the other as long as the tables and the hash table
-- have room, sized well or not.
theorem run_fill (names : List Name) (interned : Interned xxh32 gs) (distinct : names.Nodup)
    (absent : ∀ content ∈ names, gs.Absent content) (room : gs.namesUsedTotal + names.length < gs.namesByHash.length)
    (space : ∀ kind, gs.size kind + names.countP (fun content => content.kind = kind) ≤ gs.capacity kind)
    (small : ∀ kind, gs.capacity kind ≤ 2 ^ 30) :
    ∃ log gs', run xxh32 gs (names.map Name.enter) = .ok (log,gs') ∧
      gs'.namesUsedTotal = gs.namesUsedTotal + names.length ∧ gs'.namesByHash.length = gs.namesByHash.length := by
  induction names generalizing gs with
  | nil => exact ⟨[],gs,rfl,rfl,rfl⟩
  | cons content names ih =>
    rw [List.nodup_cons] at distinct
    rw [List.length_cons] at room
    have here := space content.kind
    rw [List.countP_cons,if_pos (decide_eq_true rfl)] at here
    have bound := small content.kind
    obtain ⟨ref,middle,entered,interned',inserted⟩ := interned.enterName_room (by omega)
      (absent content List.mem_cons_self) (by omega) (by omega)
    have absent' : ∀ other ∈ names, middle.Absent other := by
      intro other member r at_
      rcases (inserted.names r other).mp at_ with before | ⟨rfl,_⟩
      · exact absent other (List.mem_cons_of_mem _ member) r before
      · exact distinct.1 member
    have space' : ∀ kind, middle.size kind + names.countP (fun content => content.kind = kind) ≤ middle.capacity kind := by
      intro kind
      have := space kind
      rw [inserted.size,inserted.capacity]
      simp only [List.countP_cons,decide_eq_true_eq,eq_comm (a := content.kind)] at this
      omega
    obtain ⟨log,gs',ran,total,buckets⟩ := ih interned' distinct.2 absent'
      (by rw [inserted.total,inserted.buckets]; omega) space' (by rw [inserted.capacity]; exact small)
    refine ⟨(content,ref) :: log,gs',?_,?_,buckets.trans inserted.buckets⟩
    · rw [List.map_cons]
      have stepped : step xxh32 gs content.enter = .ok ([(content,ref)],middle) := by
        rw [step_enter (content_enter content),entered]
        rfl
      exact run_cons stepped ran
    · rw [total,inserted.total,List.length_cons]
      omega

def overfullNames : List Name :=
  (List.range 16384).map (fun i => .utf8 ⟨List.replicate (i + 1) 97⟩) ++
    (List.range 16384).map (fun i => .constant ⟨NameRef.make .utf8 i⟩) ++ [.unique ⟨NameRef.make .utf8 0,1,.singleton⟩]

-- As many constant names as strings: the capacity for constants alone is raised.
def overfull : List Call := .expandNames 1 16384 1 :: overfullNames.map Name.enter

theorem overfullNames_length : overfullNames.length = 32769 := by
  rw [overfullNames,List.length_append,List.length_append,List.length_map,List.length_map,List.length_range]
  rfl

theorem overfullNames_nodup : overfullNames.Nodup := by
  have strings : ((List.range 16384).map (fun i => Name.utf8 ⟨List.replicate (i + 1) 97⟩)).Nodup := by
    apply List.Nodup.map_on ?_ List.nodup_range
    intro i _ j _ same
    have := congrArg List.length (UTF8Name.mk.inj (Name.utf8.inj same))
    simpa using this
  have constants : ((List.range 16384).map (fun i => Name.constant ⟨NameRef.make .utf8 i⟩)).Nodup := by
    apply List.Nodup.map_on ?_ List.nodup_range
    intro i first j second same
    rw [List.mem_range] at first second
    have := congrArg NameRef.unsafeTableIndex (ConstantName.mk.inj (Name.constant.inj same))
    rwa [NameRef.index_make (by omega),NameRef.index_make (by omega)] at this
  apply List.Nodup.append
  · apply List.Nodup.append strings constants
    intro content first second
    obtain ⟨_,_,rfl⟩ := List.mem_map.mp first
    obtain ⟨_,_,same⟩ := List.mem_map.mp second
    cases same
  · exact List.nodup_singleton _
  · intro content first second
    rw [List.mem_singleton] at second
    subst second
    rw [List.mem_append,List.mem_map,List.mem_map] at first
    rcases first with ⟨_,_,same⟩ | ⟨_,_,same⟩ <;> cases same

theorem overfullNames_kinds (kind : NameKind) : overfullNames.countP (fun content => content.kind = kind) ≤
    match kind with | .unique => 4096 | _ => 16384 := by
  rw [overfullNames,List.countP_append,List.countP_append,List.countP_map,List.countP_map,List.countP_singleton]
  cases kind <;> simp [Function.comp_def,Name.kind]

theorem overfull_total (xxh32 : List UInt8 → UInt32) :
    ∃ log gs, run xxh32 .initial overfull = .ok (log,gs) ∧ gs.namesUsedTotal = 32769 ∧ gs.namesByHash.length = 65536 := by
  obtain ⟨middle,grown,interned,expanded⟩ := (initial_interned xxh32).expandNames (by rw [initial_length]; decide)
    1 16384 1
  have names := name_of_contents expanded.contents
  have sizes := size_of_contents expanded.contents
  have total : middle.namesUsedTotal = 0 := by
    rw [total_eq,sizes,initial_size,initial_size,initial_size]
  have buckets : middle.namesByHash.length = 65536 := by
    rw [expanded.buckets,initial_length]
    decide
  obtain ⟨log,gs,ran,filled,same⟩ := run_fill overfullNames interned overfullNames_nodup
    (by intro content _ ref; rw [names,initial_name]; exact fun impossible => (by cases impossible))
    (by rw [total,buckets,overfullNames_length]; decide)
    (by
      intro kind
      rw [sizes,initial_size,Nat.zero_add,expanded.capacity]
      apply Nat.le_trans (overfullNames_kinds kind)
      cases kind <;> decide)
    (by
      intro kind
      rw [expanded.capacity]
      cases kind <;> decide)
  refine ⟨log,gs,?_,?_,same.trans buckets⟩
  · have stepped : step xxh32 .initial (.expandNames 1 16384 1) = .ok ([],middle) := by
      rw [step,grown]
      rfl
    rw [overfull]
    exact run_cons stepped ran
  · rw [filled,total,overfullNames_length]

theorem overfull_not_interned :
    ¬ ∃ xxh32 log gs, run xxh32 .initial overfull = .ok (log,gs) ∧ Interns xxh32 gs (overfull.filterMap Call.content) log := by
  rintro ⟨xxh32,log,gs,ran,interns⟩
  obtain ⟨log',gs',ran',total,buckets⟩ := overfull_total xxh32
  rw [ran] at ran'
  cases ran'
  have := interns.load
  rw [total,buckets] at this
  omega

end Overfull

end Names
