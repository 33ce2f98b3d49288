import ScipRuby.Serialize.SymbolTableRoundTrip
import ScipRuby.Serialize.Tree

namespace Serialize

section Stored

def ExpressionPtr.children : ExpressionPtr → List ExpressionPtr
  | .send _ _ _ _ _ recv args => recv :: args
  | .classDef _ _ _ _ name ancestors singletonAncestors rhs => name :: (ancestors ++ (singletonAncestors ++ rhs))
  | .methodDef _ _ _ _ _ _ rhs params => rhs :: params
  | .if_ _ cond thenp elsep => [cond,thenp,elsep]
  | .while_ _ cond body => [cond,body]
  | .break_ _ expr | .next _ expr | .return_ _ expr => [expr]
  | .rescueCase _ exceptions var body => var :: body :: exceptions
  | .rescue _ body rescueCases else_ ensure => ensure :: else_ :: body :: rescueCases
  | .restParam _ expr | .keywordArg _ expr | .blockParam _ expr | .shadowArg _ expr => [expr]
  | .optionalParam _ expr default_ => [expr,default_]
  | .assign _ lhs rhs => [lhs,rhs]
  | .cast _ _ _ arg typeExpr => [arg,typeExpr]
  | .hash _ keys values => values ++ keys
  | .array _ elems => elems
  | .unresolvedConstantLit _ _ scope | .resolvedSymbol _ _ _ scope | .failedResolutionSymbol _ _ scope _ => [scope]
  | .block _ params body => body :: params
  | .insSeq _ stats expr => expr :: stats
  | _ => []

def ExpressionPtr.types : ExpressionPtr → List TypePtr
  | .cast _ _ type _ _ => [type]
  | .literal _ value => [value]
  | _ => []

-- What _sanityCheck of a node asks for, an Assign as MK::Assign makes it, and
-- counts that the counters of the source hold.
def ExpressionPtr.Node : ExpressionPtr → Prop
  | .send _ _ _ flags numPosArgs _ args =>
    numPosArgs.toNat + flags.hasBlock.toNat ≤ args.length ∧ args.length < 2 ^ 16 + flags.hasBlock.toNat
  | .classDef _ _ _ _ _ ancestors singletonAncestors rhs =>
    ancestors.length < 2 ^ 32 ∧ singletonAncestors.length < 2 ^ 32 ∧ rhs.length < 2 ^ 32
  | .methodDef _ _ _ _ _ _ _ params => params.getLast?.any isBlockParam = true ∧ params.length < 2 ^ 32
  | .rescueCase _ exceptions _ _ => exceptions.length < 2 ^ 32
  | .rescue _ _ rescueCases _ _ => rescueCases.length < 2 ^ 32
  | .assign loc lhs rhs => mkAssign loc lhs rhs = .assign loc lhs rhs
  | .hash _ keys values => keys.length = values.length ∧ values.length < 2 ^ 32
  | .array _ elems => elems.length < 2 ^ 32
  | .block _ params _ => params.length < 2 ^ 32
  | .insSeq _ stats _ => stats ≠ [] ∧ stats.length < 2 ^ 32
  | .failedResolutionSymbol .. => False
  | _ => True

inductive Stored : ExpressionPtr → Prop where
  | node {e : ExpressionPtr} (shape : e.Node) (types : ∀ t ∈ e.types, t.Plain ∧ t.Sized) (below : ∀ c ∈ e.children, Stored c) :
    Stored e

end Stored

section Arguments
variable {numPosArgs : UInt16} {hasBlock : Bool} {args : List ExpressionPtr}

theorem numNonBlockArgs_eq (inside : numPosArgs.toNat + hasBlock.toNat ≤ args.length) :
    numNonBlockArgs numPosArgs hasBlock args = (args.length - hasBlock.toNat) % 2 ^ 16 := by
  unfold numNonBlockArgs numKwArgs kwSplats
  omega

theorem pickleEach_eq (exprs : List ExpressionPtr) : pickleEach exprs = exprs.map pickleExpr := by
  induction exprs with
  | nil => rfl
  | cons e exprs ih => rw [pickleEach,ih,List.map_cons]

theorem concat_map {α : Type} {write : α → Option (List Put)} (items : List α) :
    concat id (items.map write) = concat write items := by
  induction items with
  | nil => rfl
  | cons a items ih =>
    rw [List.map_cons,concat,concat,ih]
    rfl

-- The arguments without the block, then the block: all of them.
theorem written_args (inside : numPosArgs.toNat + hasBlock.toNat ≤ args.length) (few : args.length < 2 ^ 16 + hasBlock.toNat) :
    (pickleEach args).take (numNonBlockArgs numPosArgs hasBlock args) ++
      (if hasBlock then (pickleEach args).getLast?.toList else []) = pickleEach args := by
  rw [numNonBlockArgs_eq inside,Nat.mod_eq_of_lt (by omega),pickleEach_eq]
  cases hasBlock with
  | false =>
    rw [Bool.toNat_false,Nat.sub_zero,List.take_of_length_le (by simp)]
    exact List.append_nil _
  | true =>
    have nonempty : args.map pickleExpr ≠ [] := by
      intro empty
      rw [List.map_eq_nil_iff.mp empty,Bool.toNat_true,List.length_nil] at inside
      omega
    rw [if_pos rfl,List.getLast?_eq_some_getLast nonempty,Option.toList_some,Bool.toNat_true,
      ←List.length_map pickleExpr,←List.dropLast_eq_take,List.dropLast_append_getLast]

end Arguments

section Steps
variable {blkArg : UInt32} {depth : Nat} {e : ExpressionPtr} {ops : List Put} {tag : TreeTag}

-- The tree is written, and reading at this depth gives it back.
def TreeComes (blkArg : UInt32) (depth : Nat) (e : ExpressionPtr) : Prop :=
  ∃ ops, pickleExpr e = some ops ∧ Decodes (unpickleExpr blkArg depth) ops e

theorem Decodes.node (body : Decodes (unpickleExprOf blkArg depth (unpickleExpr blkArg depth) tag) ops e) :
    Decodes (unpickleExpr blkArg (depth + 1)) (.u4 tag.code :: ops) e := by
  refine .u4_bind ?_
  rw [if_neg tag.code_ne_zero]
  exact .option_bind tag.ofCode_code body

theorem trees_come {exprs : List ExpressionPtr} (short : exprs.length < 2 ^ 32) (each : ∀ e ∈ exprs, TreeComes blkArg depth e) :
    ∃ ops, concat id (pickleEach exprs) = some ops ∧
      Decodes ((unpickleExpr blkArg depth).times (UInt32.ofNat exprs.length).toNat) ops exprs := by
  obtain ⟨ops,written,read⟩ := concat_decodes (f := id) exprs each
  rw [List.map_id] at read
  rw [UInt32.toNat_ofNat_of_lt' short,pickleEach_eq,concat_map]
  exact ⟨ops,written,read⟩

theorem comes_one {make : LocOffsets → ExpressionPtr → ExpressionPtr} {loc : LocOffsets} {expr : ExpressionPtr}
    (writes : ∀ only, pickleExpr expr = some only →
      pickleExpr (make loc expr) = some (.u4 tag.code :: (pickleLocOffsets loc ++ only)))
    (reads : unpickleExprOf blkArg depth (unpickleExpr blkArg depth) tag = unpickleOne (unpickleExpr blkArg depth) make)
    (below : TreeComes blkArg depth expr) : TreeComes blkArg (depth + 1) (make loc expr) := by
  obtain ⟨only,written,read⟩ := below
  refine ⟨_,writes only written,.node ?_⟩
  rw [reads]
  exact (decodes_locOffsets loc).bind (read.map _)

theorem decodes_constantLit {loc : LocOffsets} {cnst : UInt32} {scope : ExpressionPtr} {r : Reader ExpressionPtr}
    (below : Decodes r ops scope) :
    Decodes (unpickleUnresolvedConstantLit r) (pickleLocOffsets loc ++ (.u4 cnst :: ops)) ⟨loc,cnst,scope⟩ :=
  (decodes_locOffsets loc).bind (.u4_bind (below.map _))

theorem send_comes {loc funLoc : LocOffsets} {name : UInt32} {flags : SendFlags} {numPosArgs : UInt16} {recv : ExpressionPtr}
    {args : List ExpressionPtr} (shape : (ExpressionPtr.send loc name funLoc flags numPosArgs recv args).Node)
    (receiver : TreeComes blkArg depth recv) (each : ∀ e ∈ args, TreeComes blkArg depth e) :
    TreeComes blkArg (depth + 1) (.send loc name funLoc flags numPosArgs recv args) := by
  obtain ⟨inside,few⟩ := shape
  obtain ⟨first,written,read⟩ := receiver
  have single := Bool.toNat_le flags.hasBlock
  obtain ⟨rest,wrote,reads⟩ := trees_come (by omega) each
  have count : numNonBlockArgs numPosArgs flags.hasBlock args + flags.hasBlock.toNat = args.length := by
    rw [numNonBlockArgs_eq inside,Nat.mod_eq_of_lt (by omega)]
    omega
  rw [←written_args inside few] at wrote
  refine ⟨_,by simp only [pickleExpr,written,wrote]; rfl,.node ?_⟩
  rw [count]
  refine (decodes_locOffsets loc).bind (.u4_bind ((decodes_locOffsets funLoc).bind (.u1_bind (.u4_bind (.u4_bind ?_)))))
  rw [packBits_u1 (Nat.le_of_ble_eq_true rfl),UInt16.toUInt16_toUInt32]
  exact read.bind (reads.map _)

theorem classDef_comes {loc declLoc : LocOffsets} {kind : ClassDefKind} {symbol : UInt32} {name : ExpressionPtr}
    {ancestors singletonAncestors rhs : List ExpressionPtr}
    (shape : (ExpressionPtr.classDef loc declLoc kind symbol name ancestors singletonAncestors rhs).Node)
    (named : TreeComes blkArg depth name) (above : ∀ e ∈ ancestors, TreeComes blkArg depth e)
    (beside : ∀ e ∈ singletonAncestors, TreeComes blkArg depth e) (inside : ∀ e ∈ rhs, TreeComes blkArg depth e) :
    TreeComes blkArg (depth + 1) (.classDef loc declLoc kind symbol name ancestors singletonAncestors rhs) := by
  obtain ⟨short1,short2,short3⟩ := shape
  obtain ⟨first,written,read⟩ := named
  obtain ⟨second,written1,read1⟩ := trees_come short1 above
  obtain ⟨third,written2,read2⟩ := trees_come short2 beside
  obtain ⟨fourth,written3,read3⟩ := trees_come short3 inside
  refine ⟨_,by simp only [pickleExpr,written,written1,written2,written3]; rfl,.node ?_⟩
  refine (decodes_locOffsets loc).bind ((decodes_locOffsets declLoc).bind (.u1_bind (.u4_bind ?_)))
  refine .u4_bind (.u4_bind (.u4_bind (read.bind (read1.bind (read2.bind ?_)))))
  have last := read3.bind (k := fun rhs => Reader.ofOption (ClassDefKind.ofByte kind.byte) >>= fun kind =>
    pure (ExpressionPtr.classDef loc declLoc kind symbol name ancestors singletonAncestors rhs))
    (.option_bind kind.ofByte_byte (decodes_pure _))
  rwa [List.append_nil] at last

theorem methodDef_comes {loc declLoc nameLoc : LocOffsets} {flags : MethodDefFlags} {name symbol : UInt32} {rhs : ExpressionPtr}
    {params : List ExpressionPtr} (shape : (ExpressionPtr.methodDef loc declLoc nameLoc flags name symbol rhs params).Node)
    (body : TreeComes blkArg depth rhs) (each : ∀ e ∈ params, TreeComes blkArg depth e) :
    TreeComes blkArg (depth + 1) (.methodDef loc declLoc nameLoc flags name symbol rhs params) := by
  obtain ⟨last,short⟩ := shape
  obtain ⟨first,written,read⟩ := body
  obtain ⟨rest,wrote,reads⟩ := trees_come short each
  have kept : withBlockParam blkArg params = params := if_pos last
  refine ⟨_,by simp only [pickleExpr,written,wrote]; rfl,.node ?_⟩
  refine (decodes_locOffsets loc).bind ((decodes_locOffsets declLoc).bind ((decodes_locOffsets nameLoc).bind ?_))
  refine .u1_bind (.u4_bind (.u4_bind (.u4_bind (read.bind ?_))))
  have result := reads.map fun params => ExpressionPtr.methodDef loc declLoc nameLoc flags name symbol rhs (withBlockParam blkArg params)
  rw [kept] at result
  rw [packBits_u1 (Nat.le_of_ble_eq_true rfl)]
  exact result

-- One node, when everything below it comes back.
theorem node_comes (shape : e.Node) (types : ∀ t ∈ e.types, Comes depth t ∧ t.Plain)
    (below : ∀ c ∈ e.children, TreeComes blkArg depth c) : TreeComes blkArg (depth + 1) e := by
  cases e with
  | null => exact ⟨_,rfl,.u4_bind (decodes_pure _)⟩
  | emptyTree => exact ⟨_,rfl,.node (decodes_pure _)⟩
  | send loc name funLoc flags numPosArgs recv args =>
    exact send_comes shape (below _ List.mem_cons_self) fun c present => below c (List.mem_cons_of_mem _ present)
  | classDef loc declLoc kind symbol name ancestors singletonAncestors rhs =>
    simp only [ExpressionPtr.children,List.mem_cons,List.mem_append] at below
    exact classDef_comes shape (below _ (.inl rfl)) (fun c present => below c (.inr (.inl present)))
      (fun c present => below c (.inr (.inr (.inl present)))) fun c present => below c (.inr (.inr (.inr present)))
  | methodDef loc declLoc nameLoc flags name symbol rhs params =>
    exact methodDef_comes shape (below _ List.mem_cons_self) fun c present => below c (List.mem_cons_of_mem _ present)
  | if_ loc cond thenp elsep =>
    simp only [ExpressionPtr.children,List.forall_mem_cons] at below
    obtain ⟨⟨first,written,read⟩,⟨second,written1,read1⟩,⟨third,written2,read2⟩,_⟩ := below
    refine ⟨_,by simp only [pickleExpr,written,written1,written2]; rfl,.node ?_⟩
    exact (decodes_locOffsets loc).bind (read.bind (read1.bind (read2.map _)))
  | while_ loc cond body =>
    simp only [ExpressionPtr.children,List.forall_mem_cons] at below
    obtain ⟨⟨first,written,read⟩,⟨second,written1,read1⟩,_⟩ := below
    refine ⟨_,by simp only [pickleExpr,written,written1]; rfl,.node ?_⟩
    exact (decodes_locOffsets loc).bind (read.bind (read1.map _))
  | break_ loc expr => exact comes_one (fun only written => by simp only [pickleExpr,written]; rfl) rfl (below _ List.mem_cons_self)
  | next loc expr => exact comes_one (fun only written => by simp only [pickleExpr,written]; rfl) rfl (below _ List.mem_cons_self)
  | return_ loc expr => exact comes_one (fun only written => by simp only [pickleExpr,written]; rfl) rfl (below _ List.mem_cons_self)
  | restParam loc expr => exact comes_one (fun only written => by simp only [pickleExpr,written]; rfl) rfl (below _ List.mem_cons_self)
  | keywordArg loc expr => exact comes_one (fun only written => by simp only [pickleExpr,written]; rfl) rfl (below _ List.mem_cons_self)
  | blockParam loc expr => exact comes_one (fun only written => by simp only [pickleExpr,written]; rfl) rfl (below _ List.mem_cons_self)
  | shadowArg loc expr => exact comes_one (fun only written => by simp only [pickleExpr,written]; rfl) rfl (below _ List.mem_cons_self)
  | retry loc => exact ⟨_,rfl,.node ((decodes_locOffsets loc).map _)⟩
  | zSuperArgs loc => exact ⟨_,rfl,.node ((decodes_locOffsets loc).map _)⟩
  | self loc => exact ⟨_,rfl,.node ((decodes_locOffsets loc).map _)⟩
  | local_ loc name unique => exact ⟨_,rfl,.node ((decodes_locOffsets loc).bind (.u4_bind (.u4_bind (decodes_pure _))))⟩
  | unresolvedIdent loc kind name =>
    exact ⟨_,rfl,.node ((decodes_locOffsets loc).bind (.u1_bind (.u4_bind (.option_bind kind.ofByte_byte (decodes_pure _)))))⟩
  | rescueCase loc exceptions var body =>
    simp only [ExpressionPtr.children,List.forall_mem_cons] at below
    obtain ⟨⟨first,written,read⟩,⟨second,written1,read1⟩,each⟩ := below
    obtain ⟨rest,wrote,reads⟩ := trees_come shape each
    refine ⟨_,by simp only [pickleExpr,written,written1,wrote]; rfl,.node ?_⟩
    exact (decodes_locOffsets loc).bind (.u4_bind (read.bind (read1.bind (reads.map _))))
  | rescue loc body rescueCases else_ ensure =>
    simp only [ExpressionPtr.children,List.forall_mem_cons] at below
    obtain ⟨⟨first,written,read⟩,⟨second,written1,read1⟩,⟨third,written2,read2⟩,each⟩ := below
    obtain ⟨rest,wrote,reads⟩ := trees_come shape each
    refine ⟨_,by simp only [pickleExpr,written,written1,written2,wrote]; rfl,.node ?_⟩
    exact (decodes_locOffsets loc).bind (.u4_bind (read.bind (read1.bind (read2.bind (reads.map _)))))
  | optionalParam loc expr default_ =>
    simp only [ExpressionPtr.children,List.forall_mem_cons] at below
    obtain ⟨⟨first,written,read⟩,⟨second,written1,read1⟩,_⟩ := below
    refine ⟨_,by simp only [pickleExpr,written,written1]; rfl,.node ?_⟩
    exact (decodes_locOffsets loc).bind (read.bind (read1.map _))
  | assign loc lhs rhs =>
    simp only [ExpressionPtr.children,List.forall_mem_cons] at below
    obtain ⟨⟨first,written,read⟩,⟨second,written1,read1⟩,_⟩ := below
    refine ⟨_,by simp only [pickleExpr,written,written1]; rfl,.node ?_⟩
    have made := read1.map (mkAssign loc lhs)
    rw [show mkAssign loc lhs rhs = _ from shape] at made
    exact (decodes_locOffsets loc).bind (read.bind made)
  | cast loc cast type arg typeExpr =>
    simp only [ExpressionPtr.children,List.forall_mem_cons] at below
    obtain ⟨⟨second,written,read⟩,⟨third,written1,read1⟩,_⟩ := below
    obtain ⟨⟨first,typed,reads⟩,plain⟩ := types _ List.mem_cons_self
    rw [reread_plain _ plain] at reads
    refine ⟨_,by simp only [pickleExpr,typed,written,written1]; rfl,.node ?_⟩
    exact (decodes_locOffsets loc).bind (.u4_bind (reads.bind (read.bind (read1.map _))))
  | hash loc keys values =>
    obtain ⟨same,short⟩ := shape
    obtain ⟨first,wrote,reads⟩ := trees_come short fun c present => below c (List.mem_append_left _ present)
    obtain ⟨second,wrote1,reads1⟩ := trees_come (same ▸ short) fun c present => below c (List.mem_append_right _ present)
    rw [same] at reads1
    refine ⟨_,by simp only [pickleExpr,wrote,wrote1]; rfl,.node ?_⟩
    exact (decodes_locOffsets loc).bind (.u4_bind (reads.bind (reads1.map _)))
  | array loc elems =>
    obtain ⟨all,wrote,reads⟩ := trees_come shape below
    refine ⟨_,by simp only [pickleExpr,wrote]; rfl,.node ?_⟩
    exact (decodes_locOffsets loc).bind (.u4_bind (reads.map _))
  | literal loc value =>
    obtain ⟨⟨type,typed,reads⟩,plain⟩ := types _ List.mem_cons_self
    rw [reread_plain _ plain] at reads
    refine ⟨_,by simp only [pickleExpr,typed]; rfl,.node ?_⟩
    exact (decodes_locOffsets loc).bind (reads.map _)
  | unresolvedConstantLit loc cnst scope =>
    obtain ⟨only,written,read⟩ := below _ List.mem_cons_self
    refine ⟨_,by simp only [pickleExpr,written]; rfl,.node ?_⟩
    exact (decodes_constantLit read).map _
  | block loc params body =>
    obtain ⟨first,written,read⟩ := below _ List.mem_cons_self
    obtain ⟨rest,wrote,reads⟩ := trees_come shape fun c present => below c (List.mem_cons_of_mem _ present)
    refine ⟨_,by simp only [pickleExpr,written,wrote]; rfl,.node ?_⟩
    exact (decodes_locOffsets loc).bind (.u4_bind (read.bind (reads.map _)))
  | insSeq loc stats expr =>
    obtain ⟨nonempty,short⟩ := shape
    obtain ⟨first,written,read⟩ := below _ List.mem_cons_self
    obtain ⟨rest,wrote,reads⟩ := trees_come short fun c present => below c (List.mem_cons_of_mem _ present)
    refine ⟨_,by simp only [pickleExpr,written,wrote]; rfl,.node ?_⟩
    have made := reads.map fun stats => mkInsSeq loc stats expr
    rw [mkInsSeq,if_neg (by simpa using nonempty)] at made
    exact (decodes_locOffsets loc).bind (.u4_bind (read.bind made))
  | runtimeMethodDefinition loc name isSelfMethod =>
    refine ⟨_,rfl,.node ((decodes_locOffsets loc).bind (.u4_bind (.u1_bind ?_)))⟩
    rw [byteBool_boolByte]
    exact decodes_pure _
  | knownSymbol loc symbol =>
    exact ⟨_,rfl,.node ((decodes_locOffsets loc).bind (.u4_bind (.u4_bind (decodes_pure _))))⟩
  | resolvedSymbol symbol loc cnst scope =>
    obtain ⟨only,written,read⟩ := below _ List.mem_cons_self
    refine ⟨_,by simp only [pickleExpr,written]; rfl,.node ?_⟩
    refine (decodes_locOffsets loc).bind (.u4_bind (.u4_bind ?_))
    rw [if_pos rfl]
    exact (decodes_constantLit read).map _
  | failedResolutionSymbol loc cnst scope resolutionScopes => exact shape.elim

end Steps

section RoundTrip

-- Bounds for finitely many items have a bound in common.
theorem bound_all {α : Type} {P : Nat → α → Prop} (items : List α) (each : ∀ a ∈ items, ∃ bound, ∀ depth ≥ bound, P depth a) :
    ∃ bound, ∀ a ∈ items, ∀ depth ≥ bound, P depth a := by
  induction items with
  | nil => exact ⟨0,fun a present => absurd present List.not_mem_nil⟩
  | cons a items ih =>
    obtain ⟨first,here⟩ := each a List.mem_cons_self
    obtain ⟨rest,others⟩ := ih fun c present => each c (List.mem_cons_of_mem _ present)
    refine ⟨max first rest,List.forall_mem_cons.mpr ⟨fun depth deep => here depth (le_of_max_le_left deep),?_⟩⟩
    exact fun c present depth deep => others c present depth (le_of_max_le_right deep)

theorem stored_comes {e : ExpressionPtr} (blkArg : UInt32) (stored : Stored e) : ∃ bound, ∀ depth ≥ bound, TreeComes blkArg depth e := by
  induction stored with
  | @node e shape types below ih =>
    obtain ⟨bound,comes⟩ := bound_all e.children ih
    obtain ⟨bound',typed⟩ := bound_all (P := Comes) e.types fun t mentioned =>
      ⟨t.depth,fun depth deep => comes_plain (types t mentioned).1 (types t mentioned).2 deep⟩
    refine ⟨max bound bound' + 1,fun depth deep => ?_⟩
    cases depth with
    | zero => exact absurd deep (Nat.not_succ_le_zero _)
    | succ depth =>
      have deep := Nat.le_of_succ_le_succ deep
      exact node_comes shape
        (fun t mentioned => ⟨typed t mentioned depth (le_of_max_le_right deep),(types t mentioned).1⟩)
        fun c present => comes c present depth (le_of_max_le_left deep)

theorem tree_roundtrip (blkArg : UInt32) (e : ExpressionPtr) (stored : Stored e) :
    ∃ ops, pickleExpr e = some ops ∧ ∃ bound, ∀ depth ≥ bound, Decodes (unpickleExpr blkArg depth) ops e := by
  obtain ⟨bound,comes⟩ := stored_comes blkArg stored
  obtain ⟨ops,written,_⟩ := comes bound le_rfl
  refine ⟨ops,written,bound,fun depth deep => ?_⟩
  obtain ⟨ops',written',read⟩ := comes depth deep
  cases written.symm.trans written'
  exact read

end RoundTrip

section Samples

-- def m(x:) = f(x) { |y| A }
def sampleTree : ExpressionPtr :=
  .insSeq ⟨0,40⟩
    [.methodDef ⟨0,26⟩ ⟨0,9⟩ ⟨4,5⟩ ⟨true,false,false,false,false,false⟩ 13 0
      (.send ⟨12,26⟩ 17 ⟨12,13⟩ ⟨true,false,true⟩ 1 (.self ⟨12,12⟩)
        [.local_ ⟨14,15⟩ 21 0,.block ⟨17,26⟩ [.local_ ⟨20,21⟩ 25 1] (.unresolvedConstantLit ⟨23,24⟩ 29 .emptyTree)])
      [.keywordArg ⟨6,8⟩ (.local_ ⟨6,8⟩ 21 0),.blockParam noLoc (.local_ noLoc 33 0)]]
    (.cast ⟨28,40⟩ 37 (.classType 5) (.literal ⟨30,31⟩ (.integerLiteralType (-1))) (.resolvedSymbol 8 ⟨33,38⟩ 41 .emptyTree))

theorem sampleTree_stored : Stored sampleTree := by
  unfold sampleTree
  repeat' first
    | apply And.intro
    | refine .node ?_ ?_ ?_ <;> simp [ExpressionPtr.Node,ExpressionPtr.types,ExpressionPtr.children,TypePtr.Plain,TypePtr.Sized,
        ExpressionPtr.isBlockParam]

theorem tree_roundtrip_sample :
    ∃ ops, pickleExpr sampleTree = some ops ∧ ∃ bound, ∀ depth ≥ bound, Decodes (unpickleExpr 33 depth) ops sampleTree :=
  tree_roundtrip 33 sampleTree sampleTree_stored

def keywordArgs (count : Nat) : List ExpressionPtr := (List.range count).flatMap fun i =>
  [.literal ⟨0,1⟩ (.namedLiteralType .symbol (UInt32.ofNat i)),.literal ⟨0,1⟩ (.integerLiteralType 1)]

theorem keywordArgs_length (count : Nat) : (keywordArgs count).length = count * 2 := by
  simp [keywordArgs,List.length_flatMap]

def sampleSend (args : List ExpressionPtr) : ExpressionPtr := .send ⟨0,9⟩ 17 ⟨0,1⟩ ⟨true,false,false⟩ 0 (.self ⟨0,0⟩) args

theorem sampleSend_wide {args : List ExpressionPtr} (wide : args.length = 65536) :
    pickleExpr (sampleSend args) = pickleExpr (sampleSend []) := by
  have none : numNonBlockArgs 0 false args = 0 := by
    rw [numNonBlockArgs_eq (Nat.zero_le _),wide]
    rfl
  rw [sampleSend,sampleSend,pickleExpr,pickleExpr,none]
  rfl

-- The 65536 arguments of a call with 32768 keywords are counted as none.
theorem tree_wide_lost :
    ∃ ops, pickleExpr (sampleSend (keywordArgs 32768)) = some ops ∧ Decodes (unpickleExpr 33 2) ops (sampleSend []) ∧
      sampleSend (keywordArgs 32768) ≠ sampleSend [] := by
  have shape : (sampleSend []).Node := ⟨Nat.le_refl _,Nat.pos_of_neZero _⟩
  have receiver : TreeComes 33 1 (.self ⟨0,0⟩) := ⟨_,rfl,.node ((decodes_locOffsets _).map _)⟩
  obtain ⟨ops,written,read⟩ := send_comes shape receiver (fun e present => absurd present List.not_mem_nil)
  have wide : (keywordArgs 32768).length = 65536 := keywordArgs_length 32768
  refine ⟨ops,(sampleSend_wide wide).trans written,read,?_⟩
  intro same
  injection same with _ _ _ _ _ _ args
  rw [args] at wide
  cases wide

end Samples

end Serialize
