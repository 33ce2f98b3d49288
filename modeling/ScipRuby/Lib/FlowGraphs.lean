import Mathlib.Data.Set.Basic
import Mathlib.Data.List.Basic

namespace FlowGraphs
variable {Event Leave : Type}

section Behaviours

-- What a piece of code may do: the events it shows, and how it ends. None stands for coming to its end.
abbrev Behaviour (Event Leave : Type) := Set (List Event × Option Leave)

namespace Behaviour
variable {A B C : Behaviour Event Leave} {l : Leave} {t t' : List Event} {o : Option Leave}

def skip : Behaviour Event Leave := {([],none)}
def emit (e : Event) : Behaviour Event Leave := {([e],none)}
def leave (l : Leave) : Behaviour Event Leave := {([],some l)}

-- An event that may not be visible.
def emits (e : Option Event) : Behaviour Event Leave := {(e.toList,none)}

def seq (A B : Behaviour Event Leave) : Behaviour Event Leave :=
  {x | (x ∈ A ∧ x.2 ≠ none) ∨ ∃ t t', (t,none) ∈ A ∧ (t',x.2) ∈ B ∧ x.1 = t ++ t'}

def redirect (f : Option Leave → Option Leave) (A : Behaviour Event Leave) : Behaviour Event Leave :=
  {x | ∃ o, (x.1,o) ∈ A ∧ x.2 = f o}

inductive Loops (l : Leave) (A : Behaviour Event Leave) : List Event → Option Leave → Prop where
  | out {t : List Event} {o : Option Leave} : (t,o) ∈ A → o ≠ some l → Loops l A t o
  | again {t t' : List Event} {o : Option Leave} : (t,some l) ∈ A → Loops l A t' o → Loops l A (t ++ t') o

-- A is done again each time that it ends in l.
def loop (l : Leave) (A : Behaviour Event Leave) : Behaviour Event Leave := {x | Loops l A x.1 x.2}

def Finishes (A : Behaviour Event Leave) : Prop := ∃ t, (t,none) ∈ A

theorem mem_seq_left (left : (t,some l) ∈ A) : (t,some l) ∈ seq A B := .inl ⟨left,Option.some_ne_none l⟩

theorem mem_seq (first : (t,none) ∈ A) (second : (t',o) ∈ B) : (t ++ t',o) ∈ seq A B :=
  .inr ⟨t,t',first,second,rfl⟩

theorem skip_seq (A : Behaviour Event Leave) : seq skip A = A := by
  ext ⟨t,o⟩
  constructor
  · rintro (⟨skipped,left⟩ | ⟨t',t'',skipped,mem,split⟩)
    · exact absurd (congrArg Prod.snd skipped) left
    · obtain rfl : t' = [] := congrArg Prod.fst skipped
      obtain rfl : t = t'' := split
      exact mem
  · intro mem
    exact mem_seq (t := []) rfl mem

theorem seq_skip (A : Behaviour Event Leave) : seq A skip = A := by
  ext ⟨t,o⟩
  constructor
  · rintro (⟨mem,_⟩ | ⟨t',t'',mem,skipped,split⟩)
    · exact mem
    · obtain ⟨rfl,rfl⟩ : t'' = [] ∧ o = none := Prod.mk.inj skipped
      obtain rfl : t = t' := split.trans (List.append_nil t')
      exact mem
  · intro mem
    cases o with
    | none => exact List.append_nil t ▸ mem_seq mem rfl
    | some l => exact mem_seq_left mem

theorem seq_assoc (A B C : Behaviour Event Leave) : seq (seq A B) C = seq A (seq B C) := by
  ext ⟨t,o⟩
  constructor
  · rintro (⟨⟨mem,left⟩ | ⟨t',t'',first,second,rfl⟩,left'⟩ | ⟨t₁,t₂,⟨_,left⟩ | ⟨t',t'',first,second,rfl⟩,third,rfl⟩)
    · exact .inl ⟨mem,left⟩
    · exact .inr ⟨t',t'',first,.inl ⟨second,left'⟩,rfl⟩
    · exact absurd rfl left
    · exact .inr ⟨t',t'' ++ t₂,first,mem_seq second third,List.append_assoc ..⟩
  · rintro (⟨mem,left⟩ | ⟨t₁,t₂,first,⟨second,left⟩ | ⟨t',t'',second,third,rfl⟩,rfl⟩)
    · exact .inl ⟨.inl ⟨mem,left⟩,left⟩
    · exact .inl ⟨.inr ⟨t₁,t₂,first,second,rfl⟩,left⟩
    · exact .inr ⟨t₁ ++ t',t'',mem_seq first second,third,(List.append_assoc ..).symm⟩

theorem emits_none : (emits none : Behaviour Event Leave) = skip := rfl
theorem emits_some (e : Event) : (emits (some e) : Behaviour Event Leave) = emit e := rfl

theorem union_seq (A B C : Behaviour Event Leave) : seq (A ∪ B) C = seq A C ∪ seq B C := by
  ext ⟨t,o⟩
  constructor
  · rintro (⟨mem | mem,left⟩ | ⟨t',t'',mem | mem,second,split⟩)
    · exact .inl (.inl ⟨mem,left⟩)
    · exact .inr (.inl ⟨mem,left⟩)
    · exact .inl (.inr ⟨t',t'',mem,second,split⟩)
    · exact .inr (.inr ⟨t',t'',mem,second,split⟩)
  · rintro ((⟨mem,left⟩ | ⟨t',t'',mem,second,split⟩) | (⟨mem,left⟩ | ⟨t',t'',mem,second,split⟩))
    · exact .inl ⟨.inl mem,left⟩
    · exact .inr ⟨t',t'',.inl mem,second,split⟩
    · exact .inl ⟨.inr mem,left⟩
    · exact .inr ⟨t',t'',.inr mem,second,split⟩

theorem empty_seq (A : Behaviour Event Leave) : seq ∅ A = ∅ := by
  ext ⟨t,o⟩
  constructor
  · rintro (⟨gone,_⟩ | ⟨_,_,gone,_⟩)
    · exact gone
    · exact gone.elim
  · exact False.elim

theorem not_finishes_seq (stuck : ¬ Finishes A ∨ ¬ Finishes B) : ¬ Finishes (seq A B) := by
  rintro ⟨t,⟨_,left⟩ | ⟨t',t'',first,second,_⟩⟩
  · exact left rfl
  · rcases stuck with stuck | stuck
    · exact stuck ⟨t',first⟩
    · exact stuck ⟨t'',second⟩

theorem mem_seq_leave : (∃ o, (t,o) ∈ seq A (leave l)) ↔ ∃ o, (t,o) ∈ A := by
  constructor
  · rintro ⟨o,⟨mem,_⟩ | ⟨t',t'',mem,left,split⟩⟩
    · exact ⟨o,mem⟩
    · obtain rfl : t'' = [] := congrArg Prod.fst left
      obtain rfl : t = t' := split.trans (List.append_nil t')
      exact ⟨none,mem⟩
  · rintro ⟨o,mem⟩
    cases o with
    | some l => exact ⟨some l,mem_seq_left mem⟩
    | none => exact ⟨some l,List.append_nil t ▸ mem_seq (B := leave l) mem rfl⟩

theorem loop_leaves (mem : (t,o) ∈ loop l A) : o ≠ some l := by
  replace mem : Loops l A t o := mem
  induction mem with
  | out _ other => exact other
  | again _ _ ih => exact ih

end Behaviour

end Behaviours

section Flows

-- Blocks with their visible events and, once it is known, the two places where they go on.
structure Flow (Event : Type) where
  events : Nat → List Event
  exits : Nat → Option (Nat × Nat)

-- G comes of F by adding events to the blocks without an exit, and exits to them.
structure Extends (F G : Flow Event) : Prop where
  events : ∀ b, F.events b <+: G.events b
  closed : ∀ b exit, F.exits b = some exit → G.exits b = some exit ∧ G.events b = F.events b

variable {F G H : Flow Event} {n m b c d k dead : Nat} {p q r : Nat × Nat} {t t' : List Event} {e : Event}

theorem Extends.refl (F : Flow Event) : Extends F F := ⟨fun _ => List.prefix_rfl,fun _ _ known => ⟨known,rfl⟩⟩

theorem Extends.trans (first : Extends F G) (second : Extends G H) : Extends F H := by
  refine ⟨fun b => (first.events b).trans (second.events b),fun b exit known => ?_⟩
  obtain ⟨known',same⟩ := first.closed b exit known
  obtain ⟨known'',same'⟩ := second.closed b exit known'
  exact ⟨known'',same'.trans same⟩

-- Paths with their length and their events. A position is a block and the number of its events that are past.
inductive Path (G : Flow Event) : Nat → Nat × Nat → List Event → Nat × Nat → Prop where
  | refl (p : Nat × Nat) : Path G 0 p [] p
  | emit {n b k : Nat} {e : Event} {t : List Event} {q : Nat × Nat} :
      (G.events b)[k]? = some e → Path G n (b,k + 1) t q → Path G (n + 1) (b,k) (e :: t) q
  | exit {n b k c d x : Nat} {t : List Event} {q : Nat × Nat} :
      k = (G.events b).length → G.exits b = some (c,d) → x = c ∨ x = d → Path G n (x,0) t q → Path G (n + 1) (b,k) t q

theorem Path.trans (first : Path G n p t q) (second : Path G m q t' r) : ∃ n', Path G n' p (t ++ t') r := by
  induction first with
  | refl p => exact ⟨m,second⟩
  | emit here _ ih =>
    obtain ⟨n',path⟩ := ih second
    exact ⟨n' + 1,.emit here path⟩
  | exit done known target _ ih =>
    obtain ⟨n',path⟩ := ih second
    exact ⟨n' + 1,.exit done known target path⟩

variable {target target' : Leave → Nat × Nat} {A B : Behaviour Event Leave} {l : Leave} {cost : Nat}

-- Where a behaviour ends.
def dest (target : Leave → Nat × Nat) (q : Nat × Nat) (o : Option Leave) : Nat × Nat := o.elim q target

-- The steps that leaving takes at least.
def toll (cost : Nat) (o : Option Leave) : Nat := if o.isSome then cost else 0

theorem toll_free (o : Option Leave) : toll 0 o = 0 := ite_self 0

theorem toll_le (o : Option Leave) : toll cost o ≤ cost := by
  cases o with
  | none => exact Nat.zero_le cost
  | some l => exact Nat.le_refl cost

-- However F is extended: the paths from p to the dead block begin like A, and all of A is on such paths.
structure Covers (dead : Nat) (target : Leave → Nat × Nat) (cost : Nat) (F : Flow Event) (p : Nat × Nat)
    (A : Behaviour Event Leave) (q : Nat × Nat) : Prop where
  splits : ∀ G, Extends F G → ∀ n t, Path G n p t (dead,0) →
    ∃ t₁ t₂ o m, (t₁,o) ∈ A ∧ t = t₁ ++ t₂ ∧ Path G m (dest target q o) t₂ (dead,0) ∧ m + toll cost o ≤ n
  follows : ∀ G, Extends F G → ∀ t o, (t,o) ∈ A → ∃ n, Path G n p t (dest target q o)
  stuck : q.1 = dead → ¬ A.Finishes

-- Code put into the dead block is not run.
def Fragment (dead : Nat) (target : Leave → Nat × Nat) (F : Flow Event) (p : Nat × Nat) (A : Behaviour Event Leave)
    (q : Nat × Nat) : Prop :=
  p.1 ≠ dead → Covers dead target 1 F p A q

theorem Covers.mono (covers : Covers dead target cost F p A q) (extends_ : Extends F G) : Covers dead target cost G p A q :=
  ⟨fun H further => covers.splits H (extends_.trans further),fun H further => covers.follows H (extends_.trans further),
    covers.stuck⟩

theorem Fragment.mono (fragment : Fragment dead target F p A q) (extends_ : Extends F G) :
    Fragment dead target G p A q :=
  fun alive => (fragment alive).mono extends_

theorem Covers.free (covers : Covers dead target 1 F p A q) : Covers dead target 0 F p A q := by
  refine ⟨fun G further n t path => ?_,covers.follows,covers.stuck⟩
  obtain ⟨t₁,t₂,o,m,mem,split,rest,short⟩ := covers.splits G further n t path
  refine ⟨t₁,t₂,o,m,mem,split,rest,?_⟩
  rw [toll_free]
  exact (Nat.le_add_right ..).trans short

theorem Fragment.skip (p : Nat × Nat) : Fragment dead target F p Behaviour.skip p := by
  intro alive
  refine ⟨fun G _ n t path => ⟨[],t,none,n,rfl,rfl,path,Nat.le_refl n⟩,?_,fun same => absurd same alive⟩
  intro G _ t o mem
  obtain ⟨rfl,rfl⟩ : t = [] ∧ o = none := Prod.mk.inj mem
  exact ⟨0,.refl p⟩

-- Being where a leaving goes.
theorem Covers.here (there : target l = p) : Covers dead target 0 F p (Behaviour.leave l) q := by
  subst there
  refine ⟨fun G _ n t path => ⟨[],t,some l,n,rfl,rfl,path,Nat.le_refl n⟩,?_,?_⟩
  · intro G _ t o mem
    obtain ⟨rfl,rfl⟩ : t = [] ∧ o = some l := Prod.mk.inj mem
    exact ⟨0,.refl _⟩
  · rintro _ ⟨t,mem⟩
    cases congrArg Prod.snd mem

theorem Covers.seq (low : cost ≤ 1) (covers : Covers dead target cost F p A q) (second : Fragment dead target F q B r) :
    Covers dead target cost F p (A.seq B) r := by
  refine ⟨fun G further n t path => ?_,fun G further t o mem => ?_,fun same => ?_⟩
  · obtain ⟨t₁,t₂,o,m,mem,rfl,rest,short⟩ := covers.splits G further n t path
    cases o with
    | some l => exact ⟨t₁,t₂,some l,m,Behaviour.mem_seq_left mem,rfl,rest,short⟩
    | none =>
      have going : q.1 ≠ dead := fun same => covers.stuck same ⟨t₁,mem⟩
      obtain ⟨t₃,t₄,o,m',mem',rfl,rest',short'⟩ := (second going).splits G further m t₂ rest
      have cheap : toll cost o ≤ toll 1 o := by
        cases o with
        | none => exact Nat.le_refl _
        | some l => exact low
      exact ⟨t₁ ++ t₃,t₄,o,m',Behaviour.mem_seq mem mem',(List.append_assoc ..).symm,rest',
        (Nat.add_le_add_left cheap m').trans (short'.trans short)⟩
  · rcases mem with ⟨mem,left⟩ | ⟨t₁,t₂,mem,mem',rfl⟩
    · obtain ⟨l,rfl⟩ := Option.ne_none_iff_exists'.mp left
      exact covers.follows G further t (some l) mem
    · have going : q.1 ≠ dead := fun same => covers.stuck same ⟨t₁,mem⟩
      obtain ⟨_,path⟩ := covers.follows G further t₁ none mem
      obtain ⟨_,path'⟩ := (second going).follows G further t₂ o mem'
      exact path.trans path'
  · by_cases going : q.1 = dead
    · exact Behaviour.not_finishes_seq (.inl (covers.stuck going))
    · exact Behaviour.not_finishes_seq (.inr ((second going).stuck same))

theorem Fragment.seq (first : Fragment dead target F p A q) (second : Fragment dead target F q B r) :
    Fragment dead target F p (A.seq B) r := fun alive => (first alive).seq (Nat.le_refl 1) second

-- The next event of a block.
theorem Fragment.emit (here : (F.events b)[k]? = some e) :
    Fragment dead target F (b,k) (Behaviour.emit e) (b,k + 1) := by
  intro alive
  have known {G : Flow Event} (further : Extends F G) : (G.events b)[k]? = some e := by
    obtain ⟨rest,whole⟩ := further.events b
    rw [←whole,List.getElem?_append_left (List.getElem?_eq_some_iff.mp here).1]
    exact here
  refine ⟨fun G further n t path => ?_,fun G further t o mem => ?_,fun same => absurd same alive⟩
  · cases path with
    | refl => exact absurd rfl alive
    | emit here' rest =>
      obtain rfl := Option.some.inj (here'.symm.trans (known further))
      exact ⟨_,_,none,_,rfl,rfl,rest,Nat.le_succ _⟩
    | exit done _ _ _ =>
      have past := known further
      rw [List.getElem?_eq_none done.ge] at past
      cases past
  · obtain ⟨rfl,rfl⟩ : t = [e] ∧ o = none := Prod.mk.inj mem
    exact ⟨1,.emit (known further) (.refl _)⟩

-- The place q is the end of a block that goes on in c or d, unless it is in the dead block.
def Leads (dead : Nat) (F : Flow Event) (q : Nat × Nat) (c d : Nat) : Prop :=
  q.1 ≠ dead → F.exits q.1 = some (c,d) ∧ q.2 = (F.events q.1).length

theorem Leads.mono (leads : Leads dead F q c d) (further : Extends F G) : Leads dead G q c d := by
  intro alive
  obtain ⟨known,done⟩ := leads alive
  obtain ⟨known',same⟩ := further.closed q.1 _ known
  exact ⟨known',same ▸ done⟩

-- A path from the end of a block takes one of its exits.
theorem Path.onward (known : G.exits b = some (c,d)) (done : k = (G.events b).length) (path : Path G n (b,k) t (dead,0))
    (alive : b ≠ dead) : ∃ m x, n = m + 1 ∧ (x = c ∨ x = d) ∧ Path G m (x,0) t (dead,0) := by
  cases path with
  | refl => exact absurd rfl alive
  | emit here _ =>
    rw [List.getElem?_eq_none done.ge] at here
    cases here
  | exit _ known' target rest =>
    obtain ⟨rfl,rfl⟩ := Prod.mk.inj (Option.some.inj (known.symm.trans known'))
    exact ⟨_,_,rfl,target,rest⟩

theorem Fragment.branch (leads : Leads dead F p c d) (left : Covers dead target 0 F (c,0) A q)
    (right : Covers dead target 0 F (d,0) B q) : Fragment dead target F p (A ∪ B) q := by
  intro alive
  refine ⟨fun G further n t path => ?_,fun G further t o mem => ?_,fun same => ?_⟩
  · obtain ⟨known,done⟩ := (leads.mono further) alive
    obtain ⟨m,x,rfl,rfl | rfl,rest⟩ := path.onward known done alive
    · obtain ⟨t₁,t₂,o,m',mem,split,rest',short⟩ := left.splits G further m t rest
      exact ⟨t₁,t₂,o,m',.inl mem,split,rest',(Nat.add_le_add ((Nat.le_add_right ..).trans short) (toll_le o))⟩
    · obtain ⟨t₁,t₂,o,m',mem,split,rest',short⟩ := right.splits G further m t rest
      exact ⟨t₁,t₂,o,m',.inr mem,split,rest',(Nat.add_le_add ((Nat.le_add_right ..).trans short) (toll_le o))⟩
  · obtain ⟨known,done⟩ := (leads.mono further) alive
    rcases mem with mem | mem
    · obtain ⟨n,path⟩ := left.follows G further t o mem
      exact ⟨n + 1,.exit done known (.inl rfl) path⟩
    · obtain ⟨n,path⟩ := right.follows G further t o mem
      exact ⟨n + 1,.exit done known (.inr rfl) path⟩
  · rintro ⟨t,mem | mem⟩
    · exact left.stuck same ⟨t,mem⟩
    · exact right.stuck same ⟨t,mem⟩

theorem Fragment.enter (leads : Leads dead F p c c) (there : Covers dead target 0 F (c,0) A q) :
    Fragment dead target F p A q := by
  have both := Fragment.branch leads there there
  rwa [Set.union_self] at both

theorem Fragment.jump (leads : Leads dead F p c c) (alive : c ≠ dead) : Fragment dead target F p Behaviour.skip (c,0) :=
  .enter leads (Fragment.skip _ alive).free

theorem Fragment.goto (leads : Leads dead F p c c) (there : target l = (c,0)) :
    Fragment dead target F p (Behaviour.leave l) q :=
  .enter leads (.here there)

-- Leavings that go to the same places under another name.
theorem Covers.redirect {f : Option Leave → Option Leave} (covers : Covers dead target cost F p A q)
    (same : ∀ t o, (t,o) ∈ A → dest target q o = dest target' r (f o) ∧ (o = none → f o = none))
    (stuck : r.1 = dead → ∀ t o, (t,o) ∈ A → f o ≠ none) : Covers dead target' cost F p (A.redirect f) r := by
  refine ⟨fun G further n t path => ?_,fun G further t o mem => ?_,fun stopped => ?_⟩
  · obtain ⟨t₁,t₂,o,m,mem,split,rest,short⟩ := covers.splits G further n t path
    obtain ⟨there,kept⟩ := same t₁ o mem
    refine ⟨t₁,t₂,f o,m,⟨o,mem,rfl⟩,split,there ▸ rest,?_⟩
    cases o with
    | none => rwa [kept rfl]
    | some l => exact (Nat.add_le_add_left (toll_le _) m).trans short
  · obtain ⟨o',mem,rfl⟩ := mem
    rw [←(same t o' mem).1]
    exact covers.follows G further t o' mem
  · rintro ⟨t,o,mem,ended⟩
    exact stuck stopped t o mem ended.symm

theorem Covers.retarget (covers : Covers dead target cost F p A q)
    (same : ∀ t o, (t,o) ∈ A → dest target q o = dest target' q o) : Covers dead target' cost F p A q := by
  refine ⟨fun G further n t path => ?_,fun G further t o mem => ?_,covers.stuck⟩
  · obtain ⟨t₁,t₂,o,m,mem,split,rest,short⟩ := covers.splits G further n t path
    exact ⟨t₁,t₂,o,m,mem,split,same t₁ o mem ▸ rest,short⟩
  · rw [←same t o mem]
    exact covers.follows G further t o mem

-- What never comes to its end may be said to end anywhere.
theorem Covers.restop (covers : Covers dead target cost F p A q) (stuck : q.1 = dead) :
    Covers dead target cost F p A r := by
  have left {t : List Event} {o : Option Leave} (mem : (t,o) ∈ A) : dest target q o = dest target r o := by
    cases o with
    | none => exact absurd ⟨t,mem⟩ (covers.stuck stuck)
    | some l => rfl
  refine ⟨fun G further n t path => ?_,fun G further t o mem => ?_,fun _ => covers.stuck stuck⟩
  · obtain ⟨t₁,t₂,o,m,mem,split,rest,short⟩ := covers.splits G further n t path
    exact ⟨t₁,t₂,o,m,mem,split,left mem ▸ rest,short⟩
  · rw [←left mem]
    exact covers.follows G further t o mem

-- After A comes what does not show.
theorem Covers.enter (covers : Covers dead target 0 F p A q) (next : Fragment dead target F q Behaviour.skip r) :
    Covers dead target 0 F p A r :=
  Behaviour.seq_skip A ▸ covers.seq (Nat.zero_le 1) next

-- Leaving by l goes back to the start. Each round is shorter than the path it is taken from.
theorem Fragment.loop (fragment : Fragment dead target F p A q) (back : target l = p) :
    Fragment dead target F p (A.loop l) q := by
  intro alive
  have covers := fragment alive
  refine ⟨fun G further n => ?_,fun G further t o mem => ?_,fun stopped => ?_⟩
  · induction n using Nat.strong_induction_on with
    | _ n ih =>
      intro t path
      obtain ⟨t₁,t₂,o,m,mem,rfl,rest,short⟩ := covers.splits G further n t path
      by_cases again : o = some l
      · subst again
        have going : dest target q (some l) = p := back
        rw [going] at rest
        obtain ⟨t₃,t₄,o,m',mem',rfl,rest',short'⟩ := ih m short t₂ rest
        have less : m ≤ n := Nat.le_of_succ_le short
        exact ⟨t₁ ++ t₃,t₄,o,m',Behaviour.Loops.again mem mem',(List.append_assoc ..).symm,rest',short'.trans less⟩
      · exact ⟨t₁,t₂,o,m,Behaviour.Loops.out mem again,rfl,rest,short⟩
  · replace mem : Behaviour.Loops l A t o := mem
    induction mem with
    | out mem _ => exact covers.follows G further _ _ mem
    | again mem _ ih =>
      obtain ⟨_,path⟩ := covers.follows G further _ _ mem
      obtain ⟨_,path'⟩ := ih
      rw [show dest target q (some l) = p from back] at path
      exact path.trans path'
  · rintro ⟨t,mem⟩
    replace mem : Behaviour.Loops l A t none := mem
    generalize ended : (none : Option Leave) = o at mem
    induction mem with
    | out mem _ => exact covers.stuck stopped ⟨_,ended ▸ mem⟩
    | again _ _ ih => exact ih ended

-- One way to leave is another round, and no way to leave any more.
theorem Fragment.retries [DecidableEq Leave] {again : Leave} (fragment : Fragment dead (Function.update target again p) F p A q) :
    Fragment dead target F p (A.loop again) q := by
  intro alive
  refine (fragment.loop (Function.update_self ..) alive).retarget fun t o mem => ?_
  cases o with
  | none => rfl
  | some l => exact Function.update_of_ne (fun same => Behaviour.loop_leaves mem (congrArg some same)) ..

-- One way to leave is the end of the loop.
theorem Fragment.rounds [DecidableEq Leave] {first last : Leave} (apart : first ≠ last)
    (fragment : Fragment dead (Function.update (Function.update target first p) last q) F p A q) (alive : q.1 ≠ dead) :
    Fragment dead target F p ((A.loop first).redirect fun o => if o = some last then none else o) q := by
  intro started
  have back : Function.update (Function.update target first p) last q first = p := by
    rw [Function.update_of_ne apart,Function.update_self]
  refine (fragment.loop back started).redirect (fun t o mem => ?_) fun gone => absurd gone alive
  cases o with
  | none => exact ⟨rfl,fun _ => rfl⟩
  | some l =>
    refine ⟨?_,fun gone => absurd gone (Option.some_ne_none l)⟩
    by_cases out : l = last
    · subst out
      rw [if_pos rfl]
      exact Function.update_self ..
    · have other : l ≠ first := fun same => Behaviour.loop_leaves mem (congrArg some same)
      rw [if_neg (fun same => out (Option.some.inj same))]
      change Function.update (Function.update target first p) last q l = target l
      rw [Function.update_of_ne out,Function.update_of_ne other]

-- The whole of the paths to the dead block, from where the code starts and every leaving ends there.
theorem Covers.shows (covers : Covers dead (fun _ : Leave => (dead,0)) cost F p A (dead,0)) (closed : F.exits dead = some (dead,dead))
    (empty : F.events dead = []) : (∃ n, Path F n p t (dead,0)) ↔ ∃ o, (t,o) ∈ A := by
  have there (o : Option Leave) : dest (fun _ : Leave => (dead,0)) (dead,0) o = (dead,0) := by cases o <;> rfl
  have silent : ∀ {n : Nat} {q r : Nat × Nat} {t : List Event}, Path F n q t r → q = (dead,0) → t = [] := by
    intro n q r t path
    induction path with
    | refl _ => exact fun _ => rfl
    | emit here _ _ =>
      intro same
      obtain ⟨rfl,rfl⟩ := Prod.mk.inj same
      rw [empty] at here
      cases here
    | exit _ known target _ ih =>
      intro same
      obtain ⟨rfl,rfl⟩ := Prod.mk.inj same
      obtain ⟨rfl,rfl⟩ := Prod.mk.inj (Option.some.inj (known.symm.trans closed))
      exact ih (by rw [or_self_iff.mp target])
  constructor
  · rintro ⟨n,path⟩
    obtain ⟨t₁,t₂,o,m,mem,rfl,rest,_⟩ := covers.splits F (.refl F) n t path
    rw [silent rest (there o),List.append_nil]
    exact ⟨o,mem⟩
  · rintro ⟨o,mem⟩
    rw [←there o]
    exact covers.follows F (.refl F) t o mem

end Flows

section Prefixes
variable {F G : Flow Event} {start n : Nat} {p q : Nat × Nat} {t pre : List Event}

-- G is F with more events at the start of a block that nothing leads back to.
structure Prepends (start : Nat) (pre : List Event) (F G : Flow Event) : Prop where
  first : G.events start = pre ++ F.events start
  events : ∀ b, b ≠ start → G.events b = F.events b
  exits : G.exits = F.exits
  once : ∀ b c d, F.exits b = some (c,d) → c ≠ start ∧ d ≠ start

namespace Prepends
variable (prepends : Prepends start pre F G)
include prepends

-- The place in G of a place in F.
def shift (start : Nat) (pre : List Event) (p : Nat × Nat) : Nat × Nat :=
  if p.1 = start then (p.1,pre.length + p.2) else p

theorem event (b k : Nat) : (G.events b)[(shift start pre (b,k)).2]? = (F.events b)[k]? := by
  unfold shift
  split
  · rename_i same
    obtain rfl : b = start := same
    rw [prepends.first,List.getElem?_append_right (Nat.le_add_right ..),Nat.add_sub_cancel_left]
  · rename_i other
    rw [prepends.events b other]

theorem done (b k : Nat) : (shift start pre (b,k)).2 = (G.events b).length ↔ k = (F.events b).length := by
  unfold shift
  split
  · rename_i same
    obtain rfl : b = start := same
    rw [prepends.first,List.length_append,Nat.add_left_cancel_iff]
  · rename_i other
    rw [prepends.events b other]

omit prepends in
theorem shift_block (p : Nat × Nat) : (shift start pre p).1 = p.1 := by
  unfold shift
  split
  · rfl
  · rfl

omit prepends in
theorem shift_pair (b k : Nat) : shift start pre (b,k) = (b,(shift start pre (b,k)).2) := Prod.ext (shift_block _) rfl

omit prepends in
theorem shift_next (b k : Nat) : shift start pre (b,k + 1) = (b,(shift start pre (b,k)).2 + 1) := by
  unfold shift
  split
  · rfl
  · rfl

omit prepends in
theorem shift_other {x k : Nat} (other : x ≠ start) : shift start pre (x,k) = (x,k) := if_neg other

theorem target {b c d x : Nat} (known : F.exits b = some (c,d)) (target : x = c ∨ x = d) : x ≠ start := by
  obtain ⟨left,right⟩ := prepends.once b c d known
  rcases target with rfl | rfl
  · exact left
  · exact right

theorem forth (path : Path F n p t q) : Path G n (shift start pre p) t (shift start pre q) := by
  induction path with
  | refl p => exact .refl _
  | @emit n b k e t q here _ ih =>
    rw [shift_next] at ih
    rw [shift_pair]
    exact .emit ((prepends.event b k).trans here) ih
  | @exit n b k c d x t q done known target _ ih =>
    rw [shift_other (prepends.target known target)] at ih
    rw [shift_pair]
    exact .exit ((prepends.done b k).mpr done) ((congrFun prepends.exits b).trans known) target ih

theorem back {p' q' : Nat × Nat} (path : Path G n p' t q') : ∀ p q, p' = shift start pre p → q' = shift start pre q →
    q.1 ≠ start → Path F n p t q := by
  induction path with
  | refl p' =>
    rintro p q rfl same other
    have blocks : p.1 = q.1 := (shift_block p).symm.trans ((congrArg Prod.fst same).trans (shift_block q))
    rw [shift,if_neg (blocks ▸ other),shift,if_neg other] at same
    exact same ▸ .refl _
  | @emit n b k e t q' here _ ih =>
    rintro ⟨b',k'⟩ q same final other
    obtain rfl : b = b' := (congrArg Prod.fst same).trans (shift_block _)
    obtain rfl : k = (shift start pre (b,k')).2 := congrArg Prod.snd same
    exact .emit ((prepends.event b k').symm.trans here) (ih _ q (shift_next b k').symm final other)
  | @exit n b k c d x t q' done known target _ ih =>
    rintro ⟨b',k'⟩ q same final other
    obtain rfl : b = b' := (congrArg Prod.fst same).trans (shift_block _)
    obtain rfl : k = (shift start pre (b,k')).2 := congrArg Prod.snd same
    rw [prepends.exits] at known
    exact .exit ((prepends.done b k').mp done) known target (ih _ q (shift_other (prepends.target known target)).symm final other)

-- Paths through the start of the block.
theorem through {k : Nat} (short : k ≤ pre.length) (path : Path G n (start,k) t q) (other : q.1 ≠ start) :
    ∃ m t', t = pre.drop k ++ t' ∧ Path G m (start,pre.length) t' q := by
  induction left : pre.length - k generalizing k n t with
  | zero =>
    obtain rfl : k = pre.length := by omega
    exact ⟨n,t,by rw [List.drop_length,List.nil_append],path⟩
  | succ left ih =>
    have inside : k < pre.length := by omega
    have here : (G.events start)[k]? = some pre[k] := by
      rw [prepends.first,List.getElem?_append_left inside,List.getElem?_eq_getElem inside]
    cases path with
    | refl => exact absurd rfl other
    | emit here' rest =>
      obtain rfl := Option.some.inj (here'.symm.trans here)
      obtain ⟨m,t',rfl,rest'⟩ := ih inside rest (by omega)
      exact ⟨m,t',by rw [List.drop_eq_getElem_cons inside,List.cons_append],rest'⟩
    | exit done _ _ _ =>
      rw [List.getElem?_eq_none done.ge] at here
      cases here

theorem along {k : Nat} (short : k ≤ pre.length) (path : Path G n (start,pre.length) t q) :
    ∃ m, Path G m (start,k) (pre.drop k ++ t) q := by
  induction left : pre.length - k generalizing k with
  | zero =>
    obtain rfl : k = pre.length := by omega
    exact ⟨n,by rwa [List.drop_length,List.nil_append]⟩
  | succ left ih =>
    have inside : k < pre.length := by omega
    obtain ⟨m,path'⟩ := ih inside (by omega)
    have here : (G.events start)[k]? = some pre[k] := by
      rw [prepends.first,List.getElem?_append_left inside,List.getElem?_eq_getElem inside]
    exact ⟨m + 1,by rw [List.drop_eq_getElem_cons inside]; exact .emit here path'⟩

-- What comes first is seen first, and then what was seen before.
theorem shows (other : q.1 ≠ start) :
    (∃ n, Path G n (start,0) t q) ↔ ∃ t', t = pre ++ t' ∧ ∃ n, Path F n (start,0) t' q := by
  have first : shift start pre (start,0) = (start,pre.length) := if_pos rfl
  have last : shift start pre q = q := if_neg other
  constructor
  · rintro ⟨n,path⟩
    obtain ⟨m,t',rfl,rest⟩ := prepends.through (Nat.zero_le _) path other
    exact ⟨t',rfl,m,prepends.back rest _ _ first.symm last.symm other⟩
  · rintro ⟨t',rfl,n,path⟩
    have moved := prepends.forth path
    rw [first,last] at moved
    exact prepends.along (Nat.zero_le _) moved

end Prepends

end Prefixes

end FlowGraphs
