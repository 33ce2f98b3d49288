import Mathlib.Data.List.Induction
import ScipRuby.Scip.SymbolString

namespace Scip
open Quoting

-- The descriptors the indexer may put into a symbol: a suffix that has a
-- spelling, a name, and a disambiguator on methods only.
structure Descriptor.WellFormed (d : Descriptor) : Prop where
  spelled : d.suffix ≠ .unspecifiedSuffix ∧ d.suffix ≠ .localSuffix ∧ d.suffix ≠ .macroSuffix
  named : d.name ≠ []
  simple : ∀ c ∈ d.disambiguator, isIdentifierChar c
  methodsOnly : d.suffix ≠ .methodSuffix → d.disambiguator = []

instance (d : Descriptor) : Decidable d.WellFormed :=
  decidable_of_iff ((d.suffix ≠ .unspecifiedSuffix ∧ d.suffix ≠ .localSuffix ∧ d.suffix ≠ .macroSuffix) ∧
    d.name ≠ [] ∧ d.disambiguator.all isIdentifierChar = true ∧ (d.suffix ≠ .methodSuffix → d.disambiguator = []))
    ⟨fun ⟨a,b,c,e⟩ => ⟨a,b,List.all_eq_true.mp c,e⟩,fun ⟨a,b,c,e⟩ => ⟨a,b,List.all_eq_true.mpr c,e⟩⟩

-- The names addEscaped doubles as the grammar asks: once there is a backtick,
-- the last character that is no identifier character is one.
def EscapesTicks (text : Str) : Prop :=
  tick ∈ text → (text.filter (fun c => !isIdentifierChar c)).getLast? = some tick

instance (text : Str) : Decidable (EscapesTicks text) :=
  inferInstanceAs (Decidable (_ → _))

theorem tick_special : isIdentifierChar tick = false := by decide

theorem escapeFlags_eq (text : Str) : escapeFlags text =
    ⟨text.any (fun c => !isIdentifierChar c),
      decide ((text.filter (fun c => !isIdentifierChar c)).getLast? = some tick)⟩ := by
  induction text using List.reverseRecOn with
  | nil => rfl
  | append_singleton front c ih =>
    have step : escapeFlags (front ++ [c]) = (escapeFlags front).scan c := by
      simp [escapeFlags,List.foldl_append]
    rw [step,ih]
    by_cases plain : isIdentifierChar c
    · simp [EscapeFlags.scan,plain,List.filter_append]
    · simp [EscapeFlags.scan,plain,List.filter_append,beq_eq_decide]

-- The grammar's <identifier>.
def escaped (text : Str) : Str :=
  if text.all isIdentifierChar then text else tick :: doubleTicks text ++ [tick]

theorem addEscaped_escaped (out : Str) (doubled : EscapesTicks text) :
    addEscaped out text = out ++ escaped text := by
  unfold addEscaped escaped
  simp only [escapeFlags_eq]
  by_cases simple : text.all isIdentifierChar = true
  · have none : text.any (fun c => !isIdentifierChar c) = false := by
      simpa [List.any_eq_false] using simple
    simp only [none,if_pos simple,Bool.false_eq_true,if_false]
  · have some : text.any (fun c => !isIdentifierChar c) = true := by
      simpa [List.any_eq_true] using simple
    simp only [some,if_true,if_neg simple]
    by_cases present : tick ∈ text
    · simp [doubled present]
    · simp [doubleTicks,double_free present]

-- What may follow a name: something that is neither in a name nor a backtick.
def Punctuated (text : Str) : Prop :=
  Stops (fun c => isIdentifierChar c = true) text ∧ Stops (· = tick) text

theorem escaped_cut (left : Punctuated s) (right : Punctuated t) (same : escaped n ++ s = escaped m ++ t) :
    n = m ∧ s = t := by
  unfold escaped at same
  split at same <;> rename_i simple <;> split at same <;> rename_i simple'
  · exact run_cut left.1 right.1 (List.all_eq_true.mp simple) (List.all_eq_true.mp simple') same
  · exfalso
    cases n with
    | nil => exact left.2 tick (by rw [List.nil_append] at same; rw [same]; rfl) rfl
    | cons c n =>
      have first := (List.cons.inj same).1
      have := List.all_eq_true.mp simple c (by simp)
      rw [first,tick_special] at this
      cases this
  · exfalso
    cases m with
    | nil => exact right.2 tick (by rw [List.nil_append] at same; rw [← same]; rfl) rfl
    | cons c m =>
      have first := (List.cons.inj same).1
      have := List.all_eq_true.mp simple' c (by simp)
      rw [← first,tick_special] at this
      cases this
  · simp only [List.cons_append,List.append_assoc,List.cons.injEq,true_and] at same
    exact double_cut left.2 right.2 same

def opening : Suffix → Str
  | .typeParameterSuffix => ['[']
  | .parameterSuffix => ['(']
  | _ => []

def closing (d : Descriptor) : Str :=
  match d.suffix with
  | .namespaceSuffix => ['/']
  | .typeSuffix => ['#']
  | .termSuffix => ['.']
  | .metaSuffix => [':']
  | .methodSuffix => '(' :: d.disambiguator ++ [')','.']
  | .typeParameterSuffix => [']']
  | .parameterSuffix => [')']
  | _ => []

-- What emitDescriptorString appends, and what the grammar asks for.
def appended (d : Descriptor) : Str := opening d.suffix ++ addEscaped [] d.name ++ closing d
def rendered (d : Descriptor) : Str := opening d.suffix ++ escaped d.name ++ closing d

theorem appended_rendered {d : Descriptor} (doubled : EscapesTicks d.name) : appended d = rendered d := by
  rw [appended,rendered,addEscaped_escaped [] doubled,List.nil_append]

theorem simple_escaped (simple : ∀ c ∈ text, isIdentifierChar c) (out : Str) : addEscaped out text = out ++ text := by
  have doubled : EscapesTicks text := by
    intro present
    have := simple tick present
    rw [tick_special] at this
    cases this
  rw [addEscaped_escaped out doubled,escaped,if_pos (List.all_eq_true.mpr simple)]

theorem emitDescriptorString_appended {d : Descriptor} (formed : d.WellFormed) (out : Str) :
    emitDescriptorString d out = .ok (out ++ appended d) := by
  obtain ⟨⟨_,_,_⟩,_,simple,_⟩ := formed
  cases kind : d.suffix <;>
    simp_all [emitDescriptorString,appended,opening,closing,simple_escaped simple] <;>
    rw [addEscaped_append] <;> simp

theorem closing_punctuated {d : Descriptor} (formed : d.WellFormed) (s : Str) : Punctuated (closing d ++ s) := by
  obtain ⟨⟨_,_,_⟩,_,_,_⟩ := formed
  cases kind : d.suffix <;>
    simp_all only [closing,List.cons_append,ne_eq,not_true_eq_false] <;>
    exact ⟨stops_cons (by decide),stops_cons (by decide)⟩

-- The first character of a name is no bracket.
theorem escaped_head (named : n ≠ []) (s : Str) : ∃ c rest, escaped n ++ s = c :: rest ∧ c ≠ '[' ∧ c ≠ '(' := by
  unfold escaped
  split
  · rename_i simple
    cases n with
    | nil => exact absurd rfl named
    | cons c n =>
      have inName := List.all_eq_true.mp simple c (by simp)
      refine ⟨c,n ++ s,rfl,?_,?_⟩ <;>
      · intro bracket
        subst c
        revert inName
        decide
  · exact ⟨tick,_,rfl,by decide,by decide⟩

theorem opening_cases (suffix : Suffix) :
    opening suffix = [] ∨ opening suffix = ['['] ∨ opening suffix = ['('] := by
  cases suffix <;> simp [opening]

theorem opening_cut {d e : Descriptor} (formed : d.WellFormed) (formed' : e.WellFormed)
    (same : opening d.suffix ++ (escaped d.name ++ s) = opening e.suffix ++ (escaped e.name ++ t)) :
    opening d.suffix = opening e.suffix ∧ escaped d.name ++ s = escaped e.name ++ t := by
  obtain ⟨c,rest,head,square,round⟩ := escaped_head formed.named s
  obtain ⟨c',rest',head',square',round'⟩ := escaped_head formed'.named t
  rw [head,head'] at same ⊢
  rcases opening_cases d.suffix with open' | open' | open' <;>
    rcases opening_cases e.suffix with open'' | open'' | open'' <;>
    rw [open',open''] at same ⊢ <;>
    grind

theorem closing_cut {d e : Descriptor} (formed : d.WellFormed) (formed' : e.WellFormed)
    (opened : opening d.suffix = opening e.suffix) (same : closing d ++ s = closing e ++ t) :
    d.suffix = e.suffix ∧ d.disambiguator = e.disambiguator ∧ s = t := by
  obtain ⟨⟨_,_,_⟩,_,simple,only⟩ := formed
  obtain ⟨⟨_,_,_⟩,_,simple',only'⟩ := formed'
  by_cases methods : d.suffix = .methodSuffix ∧ e.suffix = .methodSuffix
  · obtain ⟨kind,kind'⟩ := methods
    simp only [closing,kind,kind',List.cons_append,List.append_assoc,List.cons.injEq,true_and] at same
    obtain ⟨equal,rest⟩ := run_cut (stops_cons (by decide)) (stops_cons (by decide)) simple simple' same
    exact ⟨kind.trans kind'.symm,equal,by simpa using rest⟩
  · cases kind : d.suffix <;> cases kind' : e.suffix <;> simp_all [opening,closing]

-- One step of decoding: the first descriptor of a text is determined by the text.
theorem rendered_cut {d e : Descriptor} (formed : d.WellFormed) (formed' : e.WellFormed)
    (same : rendered d ++ s = rendered e ++ t) : d = e ∧ s = t := by
  simp only [rendered,List.append_assoc] at same
  obtain ⟨opened,names⟩ := opening_cut formed formed' same
  obtain ⟨name,rest⟩ := escaped_cut (closing_punctuated formed s) (closing_punctuated formed' t) names
  obtain ⟨suffix,disambiguator,tail⟩ := closing_cut formed formed' opened rest
  refine ⟨?_,tail⟩
  cases d; cases e
  simp_all

theorem emitDescriptors_appended (ds : List Descriptor) (formed : ∀ d ∈ ds, d.WellFormed) (out : Str) :
    ds.foldlM (fun out d => emitDescriptorString d out) out = .ok (out ++ ds.flatMap appended) := by
  induction ds generalizing out with
  | nil => simp [pure,Except.pure]
  | cons d ds ih =>
    rw [List.foldlM_cons,emitDescriptorString_appended (formed d (by simp))]
    have rest := ih (fun e member => formed e (List.mem_cons_of_mem _ member)) (out ++ appended d)
    simpa [bind,Except.bind] using rest

theorem appended_visible {d : Descriptor} (formed : d.WellFormed) (rest : Str) : appended d ++ rest ≠ [] := by
  have closed : closing d ≠ [] := by
    obtain ⟨⟨_,_,_⟩,_,_,_⟩ := formed
    cases kind : d.suffix <;> simp_all [closing]
  simp [appended,closed]

-- At the first place where the lists differ, neither name is one whose
-- backticks addEscaped leaves single.
def DoubledWhereApart (ds es : List Descriptor) : Prop :=
  ∀ common d ds' e es', ds = common ++ d :: ds' → es = common ++ e :: es' → d ≠ e →
    EscapesTicks d.name ∧ EscapesTicks e.name

theorem DoubledWhereApart.tail (apart : DoubledWhereApart (d :: ds) (d :: es)) : DoubledWhereApart ds es := by
  intro common x ds' e es' left right
  exact apart (d :: common) x ds' e es' (by rw [left]; rfl) (by rw [right]; rfl)

theorem appended_injective (ds es : List Descriptor) (formed : ∀ d ∈ ds, d.WellFormed)
    (formed' : ∀ e ∈ es, e.WellFormed) (apart : DoubledWhereApart ds es)
    (same : ds.flatMap appended = es.flatMap appended) : ds = es := by
  induction ds generalizing es with
  | nil =>
    cases es with
    | nil => rfl
    | cons e es => exact absurd same.symm (appended_visible (formed' e (by simp)) _)
  | cons d ds ih =>
    cases es with
    | nil => exact absurd same (appended_visible (formed d (by simp)) _)
    | cons e es =>
      simp only [List.flatMap_cons] at same
      have equal : d = e := by
        by_contra differ
        obtain ⟨doubled,doubled'⟩ := apart [] d ds e es rfl rfl differ
        rw [appended_rendered doubled,appended_rendered doubled'] at same
        exact differ (rendered_cut (formed d (by simp)) (formed' e (by simp)) same).1
      subst e
      rw [ih es (fun d member => formed d (List.mem_cons_of_mem _ member))
        (fun e member => formed' e (List.mem_cons_of_mem _ member)) apart.tail (List.append_cancel_left same)]

theorem emitSymbolString_decodable (package : Option Package) (out : Str) (ds es : List Descriptor)
    (nonempty : ds ≠ []) (nonempty' : es ≠ []) (formed : ∀ d ∈ ds, d.WellFormed) (formed' : ∀ e ∈ es, e.WellFormed)
    (apart : DoubledWhereApart ds es)
    (same : emitSymbolString ⟨package,ds⟩ out = emitSymbolString ⟨package,es⟩ out) : ds = es := by
  have some {l : List Descriptor} (filled : l ≠ []) : ¬ l.length = 0 :=
    fun zero => filled (List.length_eq_zero_iff.mp zero)
  simp only [emitSymbolString,if_neg (some nonempty),if_neg (some nonempty')] at same
  rw [emitDescriptors_appended ds formed,emitDescriptors_appended es formed'] at same
  exact appended_injective ds es formed formed' apart (List.append_cancel_left (Except.ok.inj same))

-- A method of a gem whose class name holds backticks that are all doubled.
def tickedType : Descriptor := ⟨['a',' ',tick],[],.typeSuffix⟩
def plainMethod : Descriptor := ⟨"run!".toList,"1".toList,.methodSuffix⟩

theorem emitSymbolString_decodable_ticked :
    DoubledWhereApart [tickedType,plainMethod] [tickedType,tickedType] ∧
    emitSymbolString ⟨none,[tickedType,plainMethod]⟩ [] ≠ emitSymbolString ⟨none,[tickedType,tickedType]⟩ [] := by
  have all : ∀ d ∈ [tickedType,plainMethod], EscapesTicks d.name := by decide
  have apart : DoubledWhereApart [tickedType,plainMethod] [tickedType,tickedType] := by
    intro common d ds' e es' left right _
    have inLeft : d ∈ [tickedType,plainMethod] := by rw [left]; simp
    have inRight : e ∈ [tickedType,tickedType] := by rw [right]; simp
    exact ⟨all d inLeft,all e (List.mem_cons.mpr (Or.inl (by simpa using inRight)))⟩
  refine ⟨apart,fun same => ?_⟩
  have equal := emitSymbolString_decodable none [] _ _ (by decide) (by decide) (by decide) (by decide) apart same
  revert equal
  decide

-- One type whose name imitates the boundary between two others. Its last
-- special character is a space, so its backticks stay single.
def imitation : Descriptor := ⟨"a b".toList ++ [tick,'#',tick] ++ "c d".toList,[],.typeSuffix⟩
def imitated : List Descriptor := [⟨"a b".toList,[],.typeSuffix⟩,⟨"c d".toList,[],.typeSuffix⟩]

theorem emitSymbolString_ambiguous : imitation.WellFormed ∧ (∀ d ∈ imitated, d.WellFormed) ∧
    [imitation] ≠ imitated ∧
    emitSymbolString ⟨some ⟨"demo".toList,"0.1".toList⟩,[imitation]⟩ [] =
      emitSymbolString ⟨some ⟨"demo".toList,"0.1".toList⟩,imitated⟩ [] := by
  refine ⟨by decide,by decide,by decide,?_⟩
  decide

end Scip
