import Mathlib.Data.Char
import ScipRuby.Lib.Quoting

namespace Scip

abbrev Str := List Char

-- The character U+0060 that delimits an escaped identifier.
def tick : Char := Char.ofNat 96

-- The suffixes of scip::Descriptor; Package is an alias of Namespace there.
inductive Suffix where
  | unspecifiedSuffix
  | namespaceSuffix
  | typeSuffix
  | termSuffix
  | methodSuffix
  | typeParameterSuffix
  | parameterSuffix
  | metaSuffix
  | localSuffix
  | macroSuffix
  deriving DecidableEq,Repr

def Suffix.name : Suffix → Str
  | .unspecifiedSuffix => "UnspecifiedSuffix".toList
  | .namespaceSuffix => "Namespace".toList
  | .typeSuffix => "Type".toList
  | .termSuffix => "Term".toList
  | .methodSuffix => "Method".toList
  | .typeParameterSuffix => "TypeParameter".toList
  | .parameterSuffix => "Parameter".toList
  | .metaSuffix => "Meta".toList
  | .localSuffix => "Local".toList
  | .macroSuffix => "Macro".toList

structure Descriptor where
  name : Str
  disambiguator : Str := []
  suffix : Suffix
  deriving DecidableEq,Repr

structure Package where
  name : Str
  version : Str
  deriving DecidableEq,Repr

structure Symbol where
  package : Option Package
  descriptors : List Descriptor
  deriving DecidableEq,Repr

-- The test inside the loop of addEscaped: an <identifier-character>.
def isIdentifierChar (c : Char) : Bool :=
  ('a' ≤ c && c ≤ 'z') || ('A' ≤ c && c ≤ 'Z') || ('0' ≤ c && c ≤ '9') || c == '+' || c == '-' || c == '$' || c == '_'

structure EscapeFlags where
  needsEscape : Bool := false
  needsBacktickEscape : Bool := false
  deriving DecidableEq,Repr

-- One turn of the loop. The second flag is assigned, not accumulated.
def EscapeFlags.scan (flags : EscapeFlags) (c : Char) : EscapeFlags :=
  if isIdentifierChar c then flags else ⟨true,c == tick⟩

def escapeFlags (text : Str) : EscapeFlags := text.foldl EscapeFlags.scan {}

-- absl::StrReplaceAll of one backtick by two.
def doubleTicks (text : Str) : Str := Quoting.double tick text

def addEscaped (out text : Str) : Str :=
  let flags := escapeFlags text
  if flags.needsEscape then
    if flags.needsBacktickEscape then out ++ [tick] ++ doubleTicks text ++ [tick]
    else out ++ [tick] ++ text ++ [tick]
  else out ++ text

-- absl::StrReplaceAll of one space by two; without a space the text is unchanged.
def doubleSpaces (text : Str) : Str := text.flatMap (fun c => if c = ' ' then [' ',' '] else [c])

def addSpaceEscaped (out text : Str) : Str :=
  if ' ' ∈ text then out ++ doubleSpaces text else out ++ text

-- The error text has a %s that absl::StrCat does not interpret.
def emitDescriptorString (d : Descriptor) (out : Str) : Except Str Str :=
  match d.suffix with
  | .namespaceSuffix => .ok (addEscaped out d.name ++ ['/'])
  | .typeSuffix => .ok (addEscaped out d.name ++ ['#'])
  | .termSuffix => .ok (addEscaped out d.name ++ ['.'])
  | .metaSuffix => .ok (addEscaped out d.name ++ [':'])
  | .methodSuffix => .ok (addEscaped (addEscaped out d.name ++ ['(']) d.disambiguator ++ [')','.'])
  | .typeParameterSuffix => .ok (addEscaped (out ++ ['[']) d.name ++ [']'])
  | .parameterSuffix => .ok (addEscaped (out ++ ['(']) d.name ++ [')'])
  | other => .error ("unexpected descriptor suffix %s".toList ++ other.name)

def emitPackageString (package : Option Package) (out : Str) : Str :=
  let field (out value : Str) : Str :=
    if value ≠ [] then addSpaceEscaped out value ++ [' '] else out ++ ['.',' ']
  match package with
  | some package => field (field out package.name) package.version
  | none => out ++ ['.',' ','.',' ']

def emitSymbolString (symbol : Symbol) (out : Str) : Except Str Str :=
  let out := emitPackageString symbol.package (out ++ "scip-ruby gem ".toList)
  if symbol.descriptors.length = 0 then .error "expected symbol to have at least 1 descriptor".toList
  else symbol.descriptors.foldlM (fun out d => emitDescriptorString d out) out

theorem addEscaped_append (out text : Str) : addEscaped out text = out ++ addEscaped [] text := by
  simp only [addEscaped]
  split
  · split <;> simp
  · rfl

theorem addSpaceEscaped_append (out text : Str) : addSpaceEscaped out text = out ++ addSpaceEscaped [] text := by
  unfold addSpaceEscaped
  split <;> simp

theorem emitDescriptorString_append (d : Descriptor) (out : Str) :
    emitDescriptorString d out = (emitDescriptorString d []).map (out ++ ·) := by
  -- Every call appends to what the call before it left, so one rule moves all prefixes out.
  have out_of (front : Str) (text : Str) (moved : front ≠ []) : addEscaped front text = front ++ addEscaped [] text :=
    addEscaped_append front text
  have outer := addEscaped_append out d.name
  cases kind : d.suffix <;> simp (disch := simp) [emitDescriptorString,kind,Except.map,outer,out_of]

theorem emitDescriptors_append (ds : List Descriptor) (out : Str) :
    ds.foldlM (fun out d => emitDescriptorString d out) out =
      (ds.foldlM (fun out d => emitDescriptorString d out) []).map (out ++ ·) := by
  induction ds generalizing out with
  | nil => simp [pure,Except.pure,Except.map]
  | cons d ds ih =>
    rw [List.foldlM_cons,List.foldlM_cons,emitDescriptorString_append]
    cases emitDescriptorString d [] with
    | error message => rfl
    | ok text =>
      simp only [Except.map,bind,Except.bind]
      rw [ih (out ++ text),ih text]
      cases ds.foldlM (fun out d => emitDescriptorString d out) [] <;> simp [Except.map]

theorem emitPackageString_append (package : Option Package) (out : Str) :
    emitPackageString package out = out ++ emitPackageString package [] := by
  cases package with
  | none => rfl
  | some package =>
    have field (out value : Str) :
        (if value ≠ [] then addSpaceEscaped out value ++ [' '] else out ++ ['.',' ']) =
          out ++ (if value ≠ [] then addSpaceEscaped [] value ++ [' '] else ['.',' ']) := by
      split
      · rw [addSpaceEscaped_append,List.append_assoc]
      · rfl
    simp only [emitPackageString]
    rw [field,field out,field [],field ([] ++ _)]
    simp

end Scip
