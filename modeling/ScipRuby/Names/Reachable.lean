import ScipRuby.Names.Runs

namespace Names
open Probing GlobalState NameHash
variable {xxh32 : List UInt8 → UInt32} {gs gs' : GlobalState} {ref : NameRef} {content : Name} {log : Log} {call : Call}
  {calls : List Call} {i : Nat}

-- Names are only ever added behind the ones that are there.
def Grows (gs gs' : GlobalState) : Prop := ∀ kind, gs.contents kind <+: gs'.contents kind

theorem Grows.refl (gs : GlobalState) : Grows gs gs := fun _ => List.prefix_refl _

theorem Grows.trans {middle : GlobalState} (first : Grows gs middle) (second : Grows middle gs') : Grows gs gs' :=
  fun kind => (first kind).trans (second kind)

theorem Grows.size_le (grows : Grows gs gs') (kind : NameKind) : gs.size kind ≤ gs'.size kind := by
  rw [←contents_length,←contents_length]
  exact (grows kind).length_le

-- As many names of each kind as references can tell apart.
def Addressable (gs : GlobalState) : Prop := ∀ kind, gs.size kind ≤ 2 ^ 30

theorem Grows.addressable (grows : Grows gs gs') (addressable : Addressable gs') : Addressable gs :=
  fun kind => Nat.le_trans (grows.size_le kind) (addressable kind)

section Inversion

theorem enterName_cases (done : gs.enterName xxh32 content = .ok (ref,gs')) :
    gs' = gs ∨ ∃ i, lookupBucket gs.namesByHash (hashMix xxh32 content) (gs.holds content) = .ok i ∧
      (∀ b, gs.namesByHash[i]? = some b → b.present = false) ∧ gs.insertName xxh32 i content = .ok (ref,gs') := by
  cases found : lookupBucket gs.namesByHash (hashMix xxh32 content) (gs.holds content) with
  | error failure => simp only [enterName,found,bind,Except.bind,reduceCtorEq] at done
  | ok i =>
    simp only [enterName,found,bind,Except.bind] at done
    cases bucket : gs.namesByHash[i]? with
    | some b =>
      simp only [bucket] at done
      split at done
      · cases done
        exact .inl rfl
      · rename_i missing
        refine .inr ⟨i,rfl,?_,done⟩
        intro c same
        rw [bucket,Option.some.injEq] at same
        rw [←same]
        exact Bool.eq_false_of_not_eq_true missing
    | none =>
      simp only [bucket] at done
      refine .inr ⟨i,rfl,?_,done⟩
      intro c same
      rw [bucket] at same
      cases same

-- A new name goes into the state itself or, if its table is full, into the expansion.
theorem insertName_cases (done : gs.insertName xxh32 i content = .ok (ref,gs')) :
    (gs.size content.kind ≠ gs.capacity content.kind ∧ ref = (gs.store i (hashMix xxh32 content) content).1 ∧
        gs' = (gs.store i (hashMix xxh32 content) content).2) ∨
      ∃ middle n, gs.size content.kind = gs.capacity content.kind ∧ gs.expandFor content.kind = .ok middle ∧
        lookupBucket middle.namesByHash (hashMix xxh32 content) isEmpty = .ok n ∧
        ref = (middle.store n (hashMix xxh32 content) content).1 ∧
        gs' = (middle.store n (hashMix xxh32 content) content).2 := by
  rw [insertName] at done
  split at done
  · rename_i full
    cases grown : gs.expandFor content.kind with
    | error failure => simp only [grown,bind,Except.bind,reduceCtorEq] at done
    | ok middle =>
      cases found : lookupBucket middle.namesByHash (hashMix xxh32 content) isEmpty with
      | error failure => simp only [grown,found,bind,Except.bind,reduceCtorEq] at done
      | ok n =>
        simp only [grown,found,bind,Except.bind,Except.ok.injEq] at done
        exact .inr ⟨middle,n,full,rfl,found,(congrArg Prod.fst done).symm,(congrArg Prod.snd done).symm⟩
  · rename_i space
    have stored := Except.ok.inj done
    exact .inl ⟨space,(congrArg Prod.fst stored).symm,(congrArg Prod.snd stored).symm⟩

theorem expandNames_contents {u c q : UInt32} (done : gs.expandNames u c q = .ok gs') : gs'.contents = gs.contents := by
  cases grown : NameHash.expandNames gs.namesByHash u c q with
  | error failure => simp only [GlobalState.expandNames,grown,bind,Except.bind,reduceCtorEq] at done
  | ok buckets =>
    simp only [GlobalState.expandNames,grown,bind,Except.bind,Except.ok.injEq] at done
    subst done
    exact reserve_contents gs _ _ _ buckets

theorem step_cases (done : step xxh32 gs call = .ok (log,gs')) :
    (∃ content ref, gs.enterName xxh32 content = .ok (ref,gs')) ∨ ∃ u c q, gs.expandNames u c q = .ok gs' := by
  cases known : call.content with
  | some content =>
    rw [step_enter known] at done
    cases entered : gs.enterName xxh32 content with
    | error failure => simp only [entered,Except.bind,reduceCtorEq] at done
    | ok result =>
      obtain ⟨ref,after⟩ := result
      simp only [entered,Except.bind,Except.ok.injEq,Prod.mk.injEq] at done
      exact .inl ⟨content,ref,by rw [entered,done.2]⟩
  | none =>
    cases call <;> simp only [Call.content,reduceCtorEq] at known
    rename_i u c q
    cases grown : gs.expandNames u c q with
    | error failure => simp only [step,grown,bind,Except.bind,reduceCtorEq] at done
    | ok after =>
      simp only [step,grown,bind,Except.bind,Except.ok.injEq,Prod.mk.injEq] at done
      exact .inr ⟨u,c,q,by rw [grown,done.2]⟩

theorem run_cases (done : run xxh32 gs (call :: calls) = .ok (log,gs')) :
    ∃ entered middle rest, step xxh32 gs call = .ok (entered,middle) ∧ run xxh32 middle calls = .ok (rest,gs') := by
  cases stepped : step xxh32 gs call with
  | error failure => simp only [run,stepped,bind,Except.bind,reduceCtorEq] at done
  | ok result =>
    obtain ⟨entered,middle⟩ := result
    cases ran : run xxh32 middle calls with
    | error failure => simp only [run,stepped,ran,bind,Except.bind,reduceCtorEq] at done
    | ok result =>
      obtain ⟨rest,after⟩ := result
      simp only [run,stepped,ran,bind,Except.bind,Except.ok.injEq,Prod.mk.injEq] at done
      exact ⟨entered,middle,rest,rfl,by rw [ran,done.2]⟩

end Inversion

section Growing

theorem store_grows (gs : GlobalState) (i : Nat) (hash : UInt32) (content : Name) : Grows gs (gs.store i hash content).2 := by
  intro kind
  rw [contents_store]
  exact List.prefix_append _ _

theorem grows_of_contents (same : gs'.contents = gs.contents) : Grows gs gs' := by
  intro kind
  rw [same]

theorem enterName_grows (done : gs.enterName xxh32 content = .ok (ref,gs')) : Grows gs gs' := by
  rcases enterName_cases done with rfl | ⟨i,_,_,inserted⟩
  · exact .refl _
  · rcases insertName_cases inserted with ⟨_,_,rfl⟩ | ⟨middle,n,_,grown,_,_,rfl⟩
    · exact store_grows _ _ _ _
    · exact (grows_of_contents (expandNames_contents grown)).trans (store_grows _ _ _ _)

theorem step_grows (done : step xxh32 gs call = .ok (log,gs')) : Grows gs gs' := by
  rcases step_cases done with ⟨content,ref,entered⟩ | ⟨u,c,q,grown⟩
  · exact enterName_grows entered
  · exact grows_of_contents (expandNames_contents grown)

theorem run_grows (done : run xxh32 gs calls = .ok (log,gs')) : Grows gs gs' := by
  induction calls generalizing gs log with
  | nil =>
    cases done
    exact .refl _
  | cons call calls ih =>
    obtain ⟨entered,middle,rest,stepped,ran⟩ := run_cases done
    exact (step_grows stepped).trans (ih ran)

end Growing

section Preserved

-- The table is in order and its size is a 32-bit number.
structure Sound (xxh32 : List UInt8 → UInt32) (gs : GlobalState) : Prop where
  interned : Interned xxh32 gs
  narrow : gs.namesByHash.length < 2 ^ 32

theorem Sound.expanded {u c q : UInt32} (sound : Sound xxh32 gs) (done : gs.expandNames u c q = .ok gs') : Sound xxh32 gs' := by
  obtain ⟨interned,expanded⟩ := sound.interned.expanded done
  refine ⟨interned,?_⟩
  rw [expanded.buckets]
  exact Nat.max_lt.mpr ⟨sound.narrow,UInt32.toNat_lt _⟩

theorem Sound.store (sound : Sound xxh32 gs) (small : gs.size content.kind < 2 ^ 30) (absent : gs.Absent content)
    (free : Free gs.namesByHash (hashMix xxh32 content) i) : Sound xxh32 (gs.store i (hashMix xxh32 content) content).2 where
  interned := sound.interned.store small absent free
  narrow := List.length_set.trans_lt sound.narrow

theorem Sound.entered (sound : Sound xxh32 gs) (done : gs.enterName xxh32 content = .ok (ref,gs'))
    (addressable : Addressable gs') : Sound xxh32 gs' := by
  rcases enterName_cases done with rfl | ⟨i,found,missing,inserted⟩
  · exact sound
  · obtain ⟨absent,free⟩ : gs.Absent content ∧ Free gs.namesByHash (hashMix xxh32 content) i := by
      rcases sound.interned.lookupBucket_found found with ⟨b,bucket,present,_⟩ | free
      · rw [missing b bucket] at present
        cases present
      · exact free
    have bound := addressable content.kind
    rcases insertName_cases inserted with ⟨_,_,rfl⟩ | ⟨middle,n,_,grown,found',_,rfl⟩
    · rw [size_store,if_pos rfl] at bound
      exact sound.store (by omega) absent free
    · have sound' := sound.expanded grown
      obtain ⟨k,power⟩ := sound'.interned.power
      have absent' : middle.Absent content := by
        intro ref
        rw [name_of_contents (expandNames_contents grown)]
        exact absent ref
      rw [size_store,if_pos rfl] at bound
      exact sound'.store (by omega) absent' (lookupBucket_free power found')

theorem Sound.stepped (sound : Sound xxh32 gs) (done : step xxh32 gs call = .ok (log,gs'))
    (addressable : Addressable gs') : Sound xxh32 gs' := by
  rcases step_cases done with ⟨content,ref,entered⟩ | ⟨u,c,q,grown⟩
  · exact sound.entered entered addressable
  · exact sound.expanded grown

-- Whatever the sizes, a run that comes to an end keeps the table in order.
theorem Sound.ran (sound : Sound xxh32 gs) (done : run xxh32 gs calls = .ok (log,gs'))
    (addressable : Addressable gs') : Sound xxh32 gs' := by
  induction calls generalizing gs log with
  | nil =>
    cases done
    exact sound
  | cons call calls ih =>
    obtain ⟨entered,middle,rest,stepped,ran⟩ := run_cases done
    exact ih (sound.stepped stepped ((run_grows ran).addressable addressable)) ran

theorem initial_sound (xxh32 : List UInt8 → UInt32) : Sound xxh32 .initial :=
  ⟨initial_interned xxh32,by rw [initial_length]; decide⟩

end Preserved

section Agreement

-- Two tables in order with the same names answer alike.
theorem Interned.lookupName_agrees (first : Interned xxh32 gs) (second : Interned xxh32 gs') (same : gs'.contents = gs.contents)
    (room : gs.namesUsedTotal + 1 < gs.namesByHash.length) (room' : gs'.namesUsedTotal + 1 < gs'.namesByHash.length)
    (content : Name) : gs'.lookupName xxh32 content = gs.lookupName xxh32 content := by
  have names := name_of_contents same
  by_cases absent : gs.Absent content
  · have absent' : gs'.Absent content := by
      intro ref
      rw [names]
      exact absent ref
    rw [first.lookupName_absent room absent,second.lookupName_absent room' absent']
  · simp only [GlobalState.Absent,not_forall,not_not] at absent
    obtain ⟨ref,at_⟩ := absent
    have at_' : gs'.name ref = some content := by
      rw [names]
      exact at_
    rw [first.lookupName_found room at_,second.lookupName_found room' at_']

end Agreement

end Names
