import ScipRuby.Types.Subtyping

namespace Types
open OpenRecursion

-- fillInOrComponents.
def orComponents : Ty → List Ty
  | .orType _ left right => orComponents left ++ orComponents right
  | t => [t]

-- filterOrComponents; a null pointer is none.
def filterOrComponents (typeFilter : List Ty) : Ty → Option Ty
  | .orType address left right =>
    match filterOrComponents typeFilter left,filterOrComponents typeFilter right with
    | none,kept => kept
    | kept,none => kept
    | some keptLeft,some keptRight =>
      if keptLeft = left ∧ keptRight = right then some (.orType address left right) else some (orOf keptLeft keptRight)
  | t => if t ∈ typeFilter then none else some t

-- compositeTypeDeepRefEqualHelper.
def deepRefEqual : Ty → Ty → Bool
  | .orType p l1 r1,.orType q l2 r2 => Ty.orType p l1 r1 = .orType q l2 r2 || (deepRefEqual l1 l2 && deepRefEqual r1 r2)
  | .andType p l1 r1,.andType q l2 r2 =>
    Ty.andType p l1 r1 = .andType q l2 r2 || (deepRefEqual l1 l2 && deepRefEqual r1 r2)
  | t1,t2 => t1 = t2

section Lub
variable (gs : GlobalState)

-- The components of a union that t2 absorbs, or none when t2 adds nothing to one of them.
def absorbed (t2 : Ty) : List Ty → List Ty → Eval (Option (List Ty))
  | [],typesConsumed => pure (some typesConsumed)
  | component :: components,typesConsumed =>
    any component t2 >>= fun lubbed =>
      if lubbed = component then pure none
      else if lubbed = t2 then absorbed t2 components (typesConsumed ++ [component])
      else absorbed t2 components typesConsumed

def unionWith (other t2 : Ty) : Eval Ty :=
  if gs.isSCIPRuby && (asShape t2).isSome then pure (orOf other t2)
  else underlying t2 >>= fun component => pure (orOf other component)

def lubDistributeOr (t1 t2 : Ty) : Eval Ty :=
  absorbed t2 (orComponents t1) [] >>= fun outcome =>
    match outcome with
    | none => pure t1
    | some [] => unionWith gs t1 t2
    | some typesConsumed =>
      match filterOrComponents typesConsumed t1 with
      | none => pure t2
      | some remainingTypes => unionWith gs remainingTypes t2

def dropLubComponents (t1 t2 : Ty) : Eval Ty :=
  match t1 with
  | .andType address left right =>
    dropLubComponents left t2 >>= fun a1a =>
    dropLubComponents right t2 >>= fun a1b =>
    isSubType a1a t2 >>= fun subl =>
    isSubType a1b t2 >>= fun subr =>
      if subl || subr then pure bottom
      else if a1a ≠ left ∨ a1b ≠ right then all a1a a1b
      else pure (.andType address left right)
  | .orType address left right =>
    isSubType left t2 >>= fun subl =>
    isSubType right t2 >>= fun subr =>
      if subl && subr then pure bottom
      else if subl then pure right
      else if subr then pure left
      else pure (.orType address left right)
  | t => pure t

def lubGround (t1 t2 : Ty) : Eval Ty :=
  if t1 = t2 then pure t1 else
  match asClass t1,asClass t2 with
  | some sym1,some sym2 =>
    if sym1 = sym2 ∨ gs.derivesFrom sym2 sym1 then pure t1
    else if gs.derivesFrom sym1 sym2 then pure t2
    else pure (orOf t1 t2)
  | _,_ => .stuck

-- The argument for one type member of the common class; none when the two cannot be merged.
def lubArgument (variance : Variance) (a1i a2j : Ty) : Eval (Option Ty) :=
  match variance with
  | .coVariant => any a1i a2j >>= fun joined => pure (some joined)
  | .invariant =>
    equiv a1i a2j >>= fun same => pure (if same then some (if a1i.isUntyped then a1i else a2j) else none)
  | .contraVariant => all a1i a2j >>= fun met => pure (some met)

structure Merged where
  newTarg : Ty
  fromT1 : Ty
  fromT2 : Ty

-- The loop over the type members of the supertype. Its search for a member has no bound.
def lubArguments (members1 : List TypeMemberRef) (targs1 : List Ty) :
    List TypeMemberRef → List TypeMemberRef → List Ty → Eval (Option (List Merged))
  | [],_,_ => pure (some [])
  | idx :: members2,index :: indexes,a2j :: targs2 =>
    match (members1.idxOf? index).bind (targs1[·]?) with
    | none => .stuck
    | some a1i =>
      lubArgument (gs.variance idx) a1i a2j >>= fun merged =>
        match merged with
        | none => pure none
        | some newTarg =>
          lubArguments members1 targs1 members2 indexes targs2 >>= fun rest =>
            pure (rest.map (⟨newTarg,a1i,a2j⟩ :: ·))
  | _ :: _,_,_ => .stuck

-- Two applied types of which the class of the first derives from that of the second.
def lubAppliedTypes (t1s : Ty) (klass1 : ClassOrModuleRef) (targs1 : List Ty) (t2s : Ty) (klass2 : ClassOrModuleRef)
    (targs2 : List Ty) : Eval Ty :=
  lubArguments gs (gs.typeMembers klass1) targs1 (gs.typeMembers klass2)
      (gs.alignBaseTypeArgs klass1 targs1 klass2) targs2 >>= fun outcome =>
    match outcome with
    | none => pure (orOf t1s t2s)
    | some merged =>
      if merged.all fun m => m.newTarg = m.fromT2 then pure t2s
      else if klass1 = klass2 ∧ (merged.all fun m => m.newTarg = m.fromT1) then pure t1s
      else pure (.appliedType fresh klass2 (merged.map (·.newTarg)))

def lubApplied (t1 : Ty) (klass1 : ClassOrModuleRef) (targs1 : List Ty) (t2 : Ty) : Eval Ty :=
  match asApplied t2 with
  | none =>
    isSubType t2 t1 >>= fun above =>
      if above then pure t1 else
      isSubType t1 t2 >>= fun below =>
        if below then pure t2 else pure (orOf t1 t2)
  | some (klass2,targs2) =>
    if klass1 = klass2 ∨ gs.derivesFrom klass1 klass2 then lubAppliedTypes gs t1 klass1 targs1 t2 klass2 targs2
    else if gs.derivesFrom klass2 klass1 then lubAppliedTypes gs t2 klass2 targs2 t1 klass1 targs1
    else pure (orOf t1 t2)

def lubElems : List Ty → List Ty → Eval (List Ty)
  | a :: as,b :: bs => lub a b >>= fun joined => lubElems as bs >>= fun rest => pure (joined :: rest)
  | _,_ => pure []

def lubTuples (t1 : Ty) (elems1 : List Ty) (t2 : Ty) (elems2 : List Ty) : Eval Ty :=
  if elems1.length = elems2.length then
    lubElems elems1 elems2 >>= fun elemLubs =>
      if elemLubs = elems1 then pure t1
      else if elemLubs = elems2 then pure t2
      else pure (.tupleType fresh elemLubs)
  else pure arrayOfUntyped

-- The values of the second shape joined with those of the first under the same keys; none when a key is missing.
def lubValues (keys1 values1 : List Ty) : List Ty → List Ty → Eval (Option (List Merged))
  | [],_ => pure (some [])
  | key :: keys2,values2 =>
    match indexForKey keys1 key with
    | none => pure none
    | some i =>
      match values1[i]?,values2 with
      | some value1,value2 :: values2 =>
        lub value1 value2 >>= fun joined =>
        lubValues keys1 values1 keys2 values2 >>= fun rest => pure (rest.map (⟨joined,value1,value2⟩ :: ·))
      | _,_ => .stuck

def lubShapes (t1 : Ty) (keys1 values1 : List Ty) (t2 : Ty) (keys2 values2 : List Ty) : Eval Ty :=
  if keys2.length = keys1.length then
    lubValues keys1 values1 keys2 values2 >>= fun outcome =>
      match outcome with
      | none => pure hashOfUntyped
      | some merged =>
        if merged.all fun m => m.newTarg = m.fromT1 then pure t1
        else if merged.all fun m => m.newTarg = m.fromT2 then pure t2
        else pure (.shapeType fresh keys2 (merged.map (·.newTarg)))
  else pure hashOfUntyped

def lubLiteralWithProxy (literalUnderlying t2 : Ty) : Eval Ty :=
  if gs.isSCIPRuby && ((asShape t2).isSome || (asTuple t2).isSome) then lub literalUnderlying t2
  else proxyUnderlying t2 >>= fun und => lub literalUnderlying und

-- A literal against a proxy of the same or a later kind.
def lubLiteral (t1 t2 : Ty) (klass1 : ClassOrModuleRef) : Eval Ty :=
  match t1,t2 with
  | .namedLiteralType _ _,.namedLiteralType kind2 _ =>
    if klass1 = kind2.klass then pure (if literalEquals t1 t2 then t1 else .classType klass1)
    else lubGround gs (.classType klass1) (.classType kind2.klass)
  | .integerLiteralType _ _,.integerLiteralType _ _ => pure (if literalEquals t1 t2 then t1 else .classType klass1)
  | .floatLiteralType _ _,.floatLiteralType _ _ => pure (if literalEquals t1 t2 then t1 else .classType klass1)
  | _,_ => lubLiteralWithProxy gs (.classType klass1) t2

def lubProxies (t1 t2 : Ty) : Eval Ty :=
  match asTuple t1 with
  | some elems1 =>
    match asTuple t2 with
    | some elems2 => lubTuples t1 elems1 t2 elems2
    | none => proxyUnderlying t1 >>= fun und1 => proxyUnderlying t2 >>= fun und2 => lub und1 und2
  | none =>
    match asShape t1 with
    | some (keys1,values1) =>
      match asShape t2 with
      | some (keys2,values2) => lubShapes t1 keys1 values1 t2 keys2 values2
      | none =>
        if (asTuple t2).isSome then pure (orOf t1 t2)
        else proxyUnderlying t1 >>= fun und1 => proxyUnderlying t2 >>= fun und2 => lub und1 und2
    | none =>
      match literalClass t1 with
      | some klass1 => lubLiteral gs t1 t2 klass1
      | none => .stuck

-- A proxy against a type that is not one; union is the pair in the order of the arguments.
def lubProxyWith (proxy other union : Ty) : Eval Ty :=
  proxyUnderlying proxy >>= fun und =>
  isSubType und other >>= fun below =>
    if below then pure other
    else if (asTuple proxy).isSome || (asShape proxy).isSome then pure union
    else lub other und

def lubMeta (t1 t2 : Ty) (otherwise : Eval Ty) : Eval Ty :=
  match asMeta t1,asMeta t2 with
  | none,none => otherwise
  | some wrapped1,some wrapped2 =>
    equiv wrapped1 wrapped2 >>= fun same =>
      if same then pure t1 else lub (.classType Symbols.Object) (.classType Symbols.Object)
  | some _,none => lub (.classType Symbols.Object) t2
  | none,some _ => lub t1 (.classType Symbols.Object)

def lubSelfTypeParam (t1 t2 : Ty) (otherwise : Eval Ty) : Eval Ty :=
  match asSelfTypeParam t1,asSelfTypeParam t2 with
  | none,none => otherwise
  | none,some definition2 =>
    match gs.bounds definition2 with
    | some (lowerBound,_) =>
      if lowerBound.isUntyped then pure (orOf t1 t2)
      else isSubType t1 lowerBound >>= fun below => pure (if below then t2 else orOf t1 t2)
    | none => pure (orOf t1 t2)
  | some _,_ => pure (orOf t1 t2)

-- An intersection on the right of a type that is not a union, or of one that the lub distributes over.
def lubWithAnd (t1 t2 : Ty) : Eval Ty :=
  if (asAnd t1).isSome && deepRefEqual t1 t2 then pure t2 else
  underlying t1 >>= fun t1d =>
  dropLubComponents t2 t1d >>= fun t2filtered =>
    if t2filtered ≠ t2 then lub t1d t2filtered
    else if (asOr t1).isSome then lubDistributeOr gs t1 t2
    else pure (orOf t1 t2filtered)

-- Neither side a union or an intersection.
def lubLeaves (t1 t2 : Ty) : Eval Ty :=
  match asApplied t1 with
  | some (klass1,targs1) => lubApplied gs t1 klass1 targs1 t2
  | none =>
    if isProxyType t1 then
      if isProxyType t2 then lubProxies gs t1 t2 else lubProxyWith t1 t2 (orOf t1 t2)
    else if isProxyType t2 then lubProxyWith t2 t1 (orOf t1 t2)
    else
      lubMeta t1 t2
        (if isTypeVar t1 ∨ isTypeVar t2 then pure (orOf t1 t2)
        else lubSelfTypeParam gs t1 t2
          (if t1 = .selfType ∨ t2 = .selfType then pure (orOf t1 t2) else lubGround gs t1 t2))

-- Types::lub past the sorting of its arguments and the special classes.
def lubSorted (t1 t2 : Ty) : Eval Ty :=
  if (asOr t2).isSome then lubDistributeOr gs t2 t1
  else if (asAnd t2).isSome then lubWithAnd gs t1 t2
  else if (asOr t1).isSome then lubDistributeOr gs t1 t2
  else lubLeaves gs t1 t2

-- Types::lub.
def stepLub (t1 t2 : Ty) : Eval Ty :=
  if t1 = t2 then pure t1
  else if t2.kind < t1.kind then lub t2 t1
  else if t1 = untyped then pure t1
  else if t1 = bottom then pure t2
  else if t1 = top then pure t1
  else if t2 = untyped then pure t2
  else if t2 = bottom then pure t1
  else if t2 = top then pure t2
  else lubSorted gs t1 t2

end Lub

section Glb
variable (gs : GlobalState)

def glbDistributeAnd (t1 left right t2 : Ty) : Eval Ty :=
  all left t2 >>= fun n1 =>
    if n1 = left then pure t1 else
  all right t2 >>= fun n2 =>
    if n1 = t2 then pure n2
    else if n2 = right then pure t1
    else if n2 = t2 then pure n1
    else
  isSubType n1 n2 >>= fun below =>
    if below then pure n1 else
  isSubType n2 n1 >>= fun above =>
    if above then pure n2
    else if (asAnd n1).isNone then pure (andOf n1 right)
    else if (asAnd n2).isNone then pure (andOf left n2)
    else pure (andOf t1 t2)

-- The elements of two tuples of one length met in order; none when one of the meets is empty.
def glbElems : List Ty → List Ty → Eval (Option (List Ty))
  | a :: as,b :: bs =>
    glb a b >>= fun glbe =>
      if glbe.isBottom then pure none
      else glbElems as bs >>= fun rest => pure (rest.map (glbe :: ·))
  | _,_ => pure (some [])

def glbTuples (t1 : Ty) (elems1 : List Ty) (t2 : Ty) (elems2 : List Ty) : Eval Ty :=
  if elems1.length = elems2.length then
    glbElems elems1 elems2 >>= fun outcome =>
      match outcome with
      | none => pure bottom
      | some elemGlbs =>
        if elems1 = elemGlbs then pure t1
        else if elems2 = elemGlbs then pure t2
        else pure (.tupleType fresh elemGlbs)
  else pure bottom

def glbValues (keys1 values1 : List Ty) : List Ty → List Ty → Eval (Option (List Merged))
  | [],_ => pure (some [])
  | key :: keys2,values2 =>
    match indexForKey keys1 key with
    | none => pure none
    | some i =>
      match values1[i]?,values2 with
      | some value1,value2 :: values2 =>
        glb value1 value2 >>= fun glbe =>
          if glbe.isBottom then pure none
          else glbValues keys1 values1 keys2 values2 >>= fun rest => pure (rest.map (⟨glbe,value1,value2⟩ :: ·))
      | _,_ => .stuck

def glbShapes (t1 : Ty) (keys1 values1 : List Ty) (t2 : Ty) (keys2 values2 : List Ty) : Eval Ty :=
  if keys2.length = keys1.length then
    glbValues keys1 values1 keys2 values2 >>= fun outcome =>
      match outcome with
      | none => pure bottom
      | some merged =>
        if merged.all fun m => m.newTarg = m.fromT1 then pure t1
        else if merged.all fun m => m.newTarg = m.fromT2 then pure t2
        else pure (.shapeType fresh keys2 (merged.map (·.newTarg)))
  else pure bottom

-- Two proxies; those of different kinds exclude one another.
def glbProxies (t1 t2 : Ty) : Eval Ty :=
  match asTuple t1,asTuple t2 with
  | some elems1,some elems2 => glbTuples t1 elems1 t2 elems2
  | _,_ =>
    match asShape t1,asShape t2 with
    | some (keys1,values1),some (keys2,values2) => glbShapes t1 keys1 values1 t2 keys2 values2
    | _,_ => pure (if literalEquals t1 t2 then t1 else bottom)

def glbProxyWith (proxy other : Ty) : Eval Ty :=
  isSubType proxy other >>= fun below => pure (if below then proxy else bottom)

-- A union of branches of an intersection, built without widening.
def exactUnion (left right : Ty) : Ty :=
  if left.isBottom ∨ left = right then right else if right.isBottom then left else orOf left right

def glbUnions (t1 left1 right1 t2 left2 right2 : Ty) : Eval Ty :=
  all left1 left2 >>= fun t11 =>
  all left1 right2 >>= fun t12 =>
  all right1 left2 >>= fun t21 =>
  all right1 right2 >>= fun t22 =>
    if t11 = left1 ∨ t11 = left2 ∨ t12 = left1 ∨ t12 = right2 ∨ t21 = right1 ∨ t21 = left2 ∨ t22 = right1 ∨
        t22 = right2 ∨ t11.isBottom ∨ t12.isBottom ∨ t21.isBottom ∨ t22.isBottom then
      if gs.isSCIPRuby then pure (exactUnion (exactUnion t11 t12) (exactUnion t21 t22))
      else any t11 t12 >>= fun upper => any t21 t22 >>= fun lower => any upper lower
    else pure (andOf t1 t2)

-- A class, an applied type or a self type parameter met with both sides of a union.
def glbBranches (t1 t2 left right : Ty) : Eval Ty :=
  all t1 left >>= fun lft =>
  isAsSpecificAs lft right >>= fun lftInRight =>
    if lftInRight && !lft.isBottom then pure lft else
  all t1 right >>= fun rght =>
  isAsSpecificAs rght left >>= fun rghtInLeft =>
    if rghtInLeft && !rght.isBottom then pure rght
    else if lft.isBottom then pure rght
    else if rght.isBottom then pure lft
    else if gs.isSCIPRuby then pure (orOf lft rght)
    else pure (andOf t1 t2)

def glbWithOr (t1 t2 left right : Ty) : Eval Ty :=
  isAsSpecificAs t1 t2 >>= fun collapseInLeft =>
    if collapseInLeft then pure t1 else
  isAsSpecificAs t2 t1 >>= fun collapseInRight =>
    if collapseInRight then pure t2
    else if (asClass t1).isSome || (asApplied t1).isSome || (asSelfTypeParam t1).isSome then
      glbBranches gs t1 t2 left right
    else
      match asOr t1 with
      | some (left1,right1) => glbUnions gs t1 left1 right1 t2 left right
      | none => pure (andOf t1 t2)

-- The argument for one type member of the subclass; none when the two types cannot be merged.
def glbArgument (idx : TypeMemberRef) (variance : Variance) (a1j a2i : Ty) : Eval (Option Ty) :=
  match variance with
  | .coVariant => all a1j a2i >>= fun met => pure (some met)
  | .invariant =>
    equiv a1j a2i >>= fun same =>
      if same then
        if a1j.isUntyped then
          match gs.bounds idx with
          | none => .stuck
          | some (lowerBound,upperBound) =>
            andAlso (isSubType lowerBound a2i) (isSubType a2i upperBound) >>= fun within =>
              pure (some (if within then a2i else a1j))
        else pure (some a1j)
      else pure none
  | .contraVariant => any a1j a2i >>= fun joined => pure (some joined)

-- The subclass' own variance, which only scip-ruby asks for.
def respectsVariance (klass1 klass2 : ClassOrModuleRef) (idx : TypeMemberRef) (a1j newTarg : Ty) : Eval Bool :=
  if gs.isSCIPRuby ∧ klass1 ≠ klass2 ∧ a1j ≠ newTarg then
    match gs.variance idx with
    | .coVariant => isSubType newTarg a1j
    | .invariant => equiv a1j newTarg
    | .contraVariant => isSubType a1j newTarg
  else pure true

-- A member that the ancestor does not declare keeps its argument.
def glbNewTarg (klass2 : ClassOrModuleRef) (targs2 : List Ty) (idx : TypeMemberRef) (index : Option TypeMemberRef)
    (a1j : Ty) : Eval (Option Ty) :=
  match index.bind fun index => ((gs.typeMembers klass2).idxOf? index).map (index,·) with
  | none => pure (some a1j)
  | some (index,i) =>
    match targs2[i]? with
    | none => .stuck
    | some a2i => glbArgument gs idx (gs.variance index) a1j a2i

-- The loop over the type members of the subclass.
def glbArguments (klass1 klass2 : ClassOrModuleRef) (targs2 : List Ty) :
    List TypeMemberRef → List TypeMemberRef → List Ty → Eval (Option (List Ty))
  | [],_,_ => pure (some [])
  | idx :: members1,indexes,a1j :: targs1 =>
    glbNewTarg gs klass2 targs2 idx indexes.head? a1j >>= fun merged =>
      match merged with
      | none => pure none
      | some newTarg =>
        respectsVariance gs klass1 klass2 idx a1j newTarg >>= fun respects =>
          if respects then
            glbArguments klass1 klass2 targs2 members1 indexes.tail targs1 >>= fun rest => pure (rest.map (newTarg :: ·))
          else pure none
  | _ :: _,_,[] => .stuck

-- Two applied types of which the class of the first derives from that of the second.
def glbAppliedTypes (both t1s : Ty) (klass1 : ClassOrModuleRef) (targs1 : List Ty) (t2s : Ty)
    (klass2 : ClassOrModuleRef) (targs2 : List Ty) : Eval Ty :=
  glbArguments gs klass1 klass2 targs2 (gs.typeMembers klass1) (gs.alignBaseTypeArgs klass2 targs2 klass1) targs1 >>=
    fun outcome =>
      match outcome with
      | none => pure both
      | some newTargs =>
        if targs1 = newTargs then pure t1s
        else if targs2 = newTargs ∧ klass1 = klass2 then pure t2s
        else pure (.appliedType fresh klass1 newTargs)

def glbApplied (t1 : Ty) (klass1 : ClassOrModuleRef) (targs1 : List Ty) (t2 : Ty) : Eval Ty :=
  match asApplied t2 with
  | none =>
    match asClass t2 with
    | none => pure (andOf t1 t2)
    | some c2 =>
      if gs.isModule klass1 then pure (andOf t1 t2)
      else if gs.derivesFrom klass1 c2 then pure t1
      else if gs.isModule c2 then pure (andOf t1 t2)
      else pure bottom
  | some (klass2,targs2) =>
    if klass1 = klass2 ∨ gs.derivesFrom klass1 klass2 then
      glbAppliedTypes gs (andOf t1 t2) t1 klass1 targs1 t2 klass2 targs2
    else if gs.derivesFrom klass2 klass1 then glbAppliedTypes gs (andOf t1 t2) t2 klass2 targs2 t1 klass1 targs1
    else if gs.isClass klass1 ∧ gs.isClass klass2 then pure bottom
    else if gs.isFinal klass1 ∨ gs.isFinal klass2 then pure bottom
    else pure (andOf t1 t2)

def glbMeta (t1 t2 : Ty) (otherwise : Eval Ty) : Eval Ty :=
  match asMeta t1,asMeta t2 with
  | none,none => otherwise
  | some wrapped1,some wrapped2 => equiv wrapped1 wrapped2 >>= fun same => pure (if same then t1 else bottom)
  | _,_ => pure bottom

def glbSelfTypeParam (t1 t2 : Ty) (otherwise : Eval Ty) : Eval Ty :=
  match asSelfTypeParam t1,asSelfTypeParam t2 with
  | none,none => otherwise
  | none,some definition2 =>
    match gs.bounds definition2 with
    | some (_,upperBound) =>
      (if upperBound.isUntyped then pure false else isSubType upperBound t1) >>= fun above =>
        if above then pure t2
        else glb t1 upperBound >>= fun met => pure (if met.isBottom then bottom else andOf t1 t2)
    | none => pure (andOf t1 t2)
  | some _,_ => pure (andOf t1 t2)

def glbGround (t1 t2 : Ty) : Eval Ty :=
  if t1 = t2 then pure t1 else
  match asClass t1,asClass t2 with
  | some sym1,some sym2 =>
    if sym1 = sym2 ∨ gs.derivesFrom sym1 sym2 then pure t1
    else if gs.derivesFrom sym2 sym1 then pure t2
    else if gs.isClass sym1 ∧ gs.isClass sym2 then pure bottom
    else if gs.isFinal sym1 ∨ gs.isFinal sym2 then pure bottom
    else pure (andOf t1 t2)
  | _,_ => .stuck

-- Types::glb past the special classes and the sorting of its arguments.
def glbSorted (t1 t2 : Ty) : Eval Ty :=
  match asAnd t1,asAnd t2 with
  | some (left,right),_ => glbDistributeAnd t1 left right t2
  | none,some (left,right) => glbDistributeAnd t2 left right t1
  | none,none =>
    if isProxyType t1 then
      if isProxyType t2 then glbProxies t1 t2 else glbProxyWith t1 t2
    else if isProxyType t2 then glbProxyWith t2 t1
    else
      glbMeta t1 t2
        (match asOr t2 with
        | some (left,right) => glbWithOr gs t1 t2 left right
        | none =>
          match asApplied t1 with
          | some (klass1,targs1) => glbApplied gs t1 klass1 targs1 t2
          | none =>
            if isTypeVar t1 ∨ isTypeVar t2 then pure (andOf t1 t2)
            else glbSelfTypeParam gs t1 t2
              (if t1 = .selfType ∨ t2 = .selfType then pure (andOf t1 t2) else glbGround gs t1 t2))

-- Types::glb.
def stepGlb (t1 t2 : Ty) : Eval Ty :=
  if t1 = t2 then pure t1
  else if t1 = top then pure t2
  else if t1 = untyped then pure (if t2 = top then t1 else t2)
  else if t1 = bottom then pure t1
  else if t2 = top then pure t1
  else if t2 = untyped then pure t1
  else if t2 = bottom then pure t2
  else if t2.kind < t1.kind then glb t2 t1
  else glbSorted gs t1 t2

end Glb

def step (gs : GlobalState) : (query : Query) → Eval (Answer query)
  | .sub mode t1 t2 => stepSub gs mode t1 t2
  | .single mode t1 t2 => stepSingle gs mode t1 t2
  | .lub t1 t2 => stepLub gs t1 t2
  | .glb t1 t2 => stepGlb gs t1 t2

end Types
