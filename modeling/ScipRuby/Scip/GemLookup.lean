import ScipRuby.Scip.Saves
import ScipRuby.Scip.Searching

namespace Scip
variable {path base name version : Str} {gemMap : GemMapping} {gs : GlobalState} {file : FileRef}

-- The directories of RBI files that stand for other gems.
def Collected (path : Str) : Prop :=
  "sorbet/rbi/gems/".toList <:+: path ∨ "sorbet/rbi/annotations/".toList <:+: path ∨ "sorbet/rbi/dsl/".toList <:+: path

-- The name of a file without its directory and its extension.
def BaseName (path base : Str) : Prop :=
  ∃ dir ext, path = dir ++ (base ++ '.' :: ext) ∧ (dir = [] ∨ dir.getLast? = some '/') ∧
    '/' ∉ base ∧ '/' ∉ ext ∧ '.' ∉ ext

-- A base name that is one gem name and one version around a single '@'.
def Versioned (base : Str) : Prop :=
  ∃ name version, base = name ++ '@' :: version ∧ name ≠ [] ∧ version ≠ [] ∧ '@' ∉ name ∧ '@' ∉ version

-- What the answer is to be, in this order: the explicit mapping, the payload, the RBI file's name, the current gem.
inductive Follows (gemMap : GemMapping) (gs : GlobalState) (file : FileRef) : Option GemMetadata → Prop where
  | mapped {gem : GemMetadata} : gemMap.map file = some gem → Follows gemMap gs file (some gem)
  | payload : gemMap.map file = none → urlPrefix <+: (gs.files file).path → Follows gemMap gs file (some stdlibGem)
  | versioned {name version : Str} : gemMap.map file = none → ¬ urlPrefix <+: (gs.files file).path →
      Collected (gs.files file).path → BaseName (gs.files file).path (name ++ '@' :: version) →
      Follows gemMap gs file (some ⟨name,version⟩)
  | unversioned {base : Str} : gemMap.map file = none → ¬ urlPrefix <+: (gs.files file).path →
      Collected (gs.files file).path → BaseName (gs.files file).path base → '@' ∉ base →
      Follows gemMap gs file (some ⟨base,"latest".toList⟩)
  | current : gemMap.map file = none → ¬ urlPrefix <+: (gs.files file).path →
      (Collected (gs.files file).path → ∀ base, ¬ BaseName (gs.files file).path base) →
      Follows gemMap gs file gemMap.currentGem

theorem strContains_iff {text needle : Str} (some_ : needle ≠ []) : strContains text needle = true ↔ needle <:+: text := by
  unfold strContains
  cases found : rfind needle text with
  | none =>
    have absent := (rfind_none some_).mp found
    simp only [Option.isSome_none,Bool.false_eq_true,false_iff]
    rintro ⟨before,after,rfl⟩
    exact absent before.length (by simp)
  | some i =>
    have starts := ((rfind_some some_).mp found).1
    simp only [Option.isSome_some,true_iff]
    exact starts.isInfix.trans (List.drop_suffix i text).isInfix

-- Each of the three directories is below the one that is asked for first.
theorem collected_iff : (strContains path "sorbet/rbi/".toList && (strContains path "sorbet/rbi/gems/".toList ||
      strContains path "sorbet/rbi/annotations/".toList || strContains path "sorbet/rbi/dsl/".toList)) = true ↔
    Collected path := by
  have above : Collected path → "sorbet/rbi/".toList <:+: path := by
    have gems : "sorbet/rbi/".toList <+: "sorbet/rbi/gems/".toList := by decide
    have annotations : "sorbet/rbi/".toList <+: "sorbet/rbi/annotations/".toList := by decide
    have dsl : "sorbet/rbi/".toList <+: "sorbet/rbi/dsl/".toList := by decide
    rintro (inside | inside | inside)
    · exact gems.isInfix.trans inside
    · exact annotations.isInfix.trans inside
    · exact dsl.isInfix.trans inside
  rw [Bool.and_eq_true,Bool.or_eq_true,Bool.or_eq_true,strContains_iff (by decide),strContains_iff (by decide),
    strContains_iff (by decide),strContains_iff (by decide),or_assoc]
  exact ⟨fun both => both.2,fun inside => ⟨above inside,inside⟩⟩

theorem tryParse_versioned (named : name ≠ []) (numbered : version ≠ []) (first : '@' ∉ name) (second : '@' ∉ version) :
    GemMetadata.tryParse (name ++ '@' :: version) = some ⟨name,version⟩ := by
  rw [GemMetadata.tryParse,splitAt_append first,splitAt_absent second]
  simp [named,numbered]

theorem tryParse_unversioned (unversioned : ¬ Versioned base) : GemMetadata.tryParse base = none := by
  unfold GemMetadata.tryParse
  by_cases first : '@' ∈ base
  · obtain ⟨name,version,rfl,absent⟩ := List.eq_append_cons_of_mem first
    rw [splitAt_append absent]
    by_cases second : '@' ∈ version
    · obtain ⟨middle,last,rfl,absent'⟩ := List.eq_append_cons_of_mem second
      rw [splitAt_append absent']
      cases others : splitAt '@' last with
      | nil => exact absurd others (splitAt_nonempty last)
      | cons => rfl
    · rw [splitAt_absent second]
      refine if_pos ?_
      by_contra both
      rw [not_or] at both
      exact unversioned ⟨name,version,rfl,both.1,both.2,absent,second⟩
  · rw [splitAt_absent first]

-- What tryParseFilepath makes of a base name.
def parseBase (base : Str) : Except Str (Option GemMetadata) :=
  if '@' ∈ base then (GemMetadata.tryParse base).elim (.error "bad_optional_access".toList) fun metadata => .ok (some metadata)
  else .ok (some ⟨base,"latest".toList⟩)

theorem tryParseFilepath_filename {dir filename : Str} (ends : dir = [] ∨ dir.getLast? = some '/') (flat : '/' ∉ filename) :
    tryParseFilepath (dir ++ filename) =
      (rfind ['.'] filename).elim (.ok none) fun dotIndex => parseBase (filename.take dotIndex) := by
  unfold tryParseFilepath
  obtain rfl | last := ends
  · rw [List.nil_append,rfind_char_none.mpr flat]
    dsimp only
    cases rfind ['.'] filename with
    | none => rfl
    | some dotIndex =>
      rw [Option.elim_some,parseBase]
      dsimp only
      cases GemMetadata.tryParse (filename.take dotIndex) <;> rfl
  · obtain ⟨above,rfl⟩ := List.getLast?_eq_some_iff.mp last
    have dropped : (above ++ '/' :: filename).drop (above.length + 1) = filename := by simp
    rw [List.append_assoc,List.singleton_append,rfind_char_append flat]
    dsimp only
    rw [dropped]
    cases rfind ['.'] filename with
    | none => rfl
    | some dotIndex =>
      rw [Option.elim_some,parseBase]
      dsimp only
      cases GemMetadata.tryParse (filename.take dotIndex) <;> rfl

theorem tryParseFilepath_named (named : BaseName path base) : tryParseFilepath path = parseBase base := by
  obtain ⟨dir,ext,rfl,ends,flat,flat',plain⟩ := named
  rw [tryParseFilepath_filename ends (by simp [flat,flat']),rfind_char_append plain]
  simp

theorem tryParseFilepath_unnamed (unnamed : ∀ base, ¬ BaseName path base) : tryParseFilepath path = .ok none := by
  have parts : ∃ dir filename, path = dir ++ filename ∧ (dir = [] ∨ dir.getLast? = some '/') ∧ '/' ∉ filename := by
    obtain ⟨flat,_⟩ | ⟨above,filename,rfl,flat,_⟩ := rfind_char_cases '/' path
    · exact ⟨[],path,rfl,.inl rfl,flat⟩
    · exact ⟨above ++ ['/'],filename,by simp,.inr (by simp),flat⟩
  obtain ⟨dir,filename,rfl,ends,flat⟩ := parts
  rw [tryParseFilepath_filename ends flat]
  obtain ⟨_,missing⟩ | ⟨base,ext,rfl,plain,_⟩ := rfind_char_cases '.' filename
  · rw [missing,Option.elim_none]
  · rw [List.mem_append,List.mem_cons,not_or,not_or] at flat
    exact absurd ⟨dir,ext,rfl,ends,flat.1,flat.2.2,plain⟩ (unnamed base)

-- The lookup for a file that has no mapping and is not part of the payload.
theorem lookupGemForFile_collected (unmapped : gemMap.map file = none) (own : ¬ urlPrefix <+: (gs.files file).path)
    (collected : Collected (gs.files file).path) :
    gemMap.lookupGemForFile gs file =
      (tryParseFilepath (gs.files file).path).map fun found => found.or gemMap.currentGem := by
  have own' : ¬ urlPrefix.isPrefixOf (gs.files file).path = true := fun starts => own (List.isPrefixOf_iff_prefix.mp starts)
  unfold GemMapping.lookupGemForFile
  rw [unmapped]
  dsimp only
  rw [if_neg own',if_pos (collected_iff.mpr collected)]
  cases tryParseFilepath (gs.files file).path with
  | error => rfl
  | ok parsed => cases parsed <;> rfl

theorem lookupGemForFile_follows_iff (gemMap : GemMapping) (gs : GlobalState) (file : FileRef) :
    (∃ answer, gemMap.lookupGemForFile gs file = .ok answer ∧ Follows gemMap gs file answer) ↔
      (gemMap.map file = none → ¬ urlPrefix <+: (gs.files file).path → Collected (gs.files file).path →
        ∀ base, BaseName (gs.files file).path base → '@' ∈ base → Versioned base) := by
  constructor
  · rintro ⟨answer,result,_⟩ unmapped own collected base named marked
    by_contra unversioned
    rw [lookupGemForFile_collected unmapped own collected,tryParseFilepath_named named,parseBase,if_pos marked,
      tryParse_unversioned unversioned] at result
    cases result
  · intro shaped
    cases mapped : gemMap.map file with
    | some gem => exact ⟨some gem,by simp [GemMapping.lookupGemForFile,mapped],.mapped mapped⟩
    | none =>
      by_cases payload : urlPrefix <+: (gs.files file).path
      · refine ⟨some stdlibGem,?_,.payload mapped payload⟩
        simp [GemMapping.lookupGemForFile,mapped,List.isPrefixOf_iff_prefix.mpr payload]
      by_cases collected : Collected (gs.files file).path
      · rw [lookupGemForFile_collected mapped payload collected]
        by_cases named : ∃ base, BaseName (gs.files file).path base
        · obtain ⟨base,named⟩ := named
          rw [tryParseFilepath_named named,parseBase]
          by_cases marked : '@' ∈ base
          · obtain ⟨name,version,rfl,some_,some_',first,second⟩ := shaped mapped payload collected base named marked
            rw [if_pos marked,tryParse_versioned some_ some_' first second]
            exact ⟨_,rfl,.versioned mapped payload collected named⟩
          · rw [if_neg marked]
            exact ⟨_,rfl,.unversioned mapped payload collected named marked⟩
        · have unnamed := not_exists.mp named
          rw [tryParseFilepath_unnamed unnamed]
          exact ⟨_,rfl,.current mapped payload fun _ => unnamed⟩
      · have payload' : ¬ urlPrefix.isPrefixOf (gs.files file).path = true :=
          fun starts => payload (List.isPrefixOf_iff_prefix.mp starts)
        refine ⟨gemMap.currentGem,?_,.current mapped payload fun inside => absurd inside collected⟩
        unfold GemMapping.lookupGemForFile
        rw [mapped]
        dsimp only
        rw [if_neg payload',if_neg (collected_iff.not.mpr collected)]

-- A file of two '@'s.
def misnamedTable : GlobalState :=
  {sampleTable with files := fun _ => ⟨"sorbet/rbi/gems/a@b@c.rbi".toList,[]⟩}

theorem lookupGemForFile_fails : ¬ ∃ answer, (GemMapping.mk none fun _ => none).lookupGemForFile misnamedTable 1 = .ok answer ∧
    Follows ⟨none,fun _ => none⟩ misnamedTable 1 answer := by
  rintro ⟨answer,result,_⟩
  have fails : (GemMapping.mk none fun _ => none).lookupGemForFile misnamedTable 1 = .error "bad_optional_access".toList := by
    rfl
  rw [fails] at result
  cases result

end Scip
