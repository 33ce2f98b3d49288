import Mathlib.Data.Nat.Digits.Defs
import Mathlib.Data.List.Basic

namespace Lsp
namespace Input

abbrev Bytes := List UInt8

def LF : UInt8 := 10
def CR : UInt8 := 13

-- The bytes of a text in ASCII.
def ascii (text : String) : Bytes := text.toList.map (fun c => UInt8.ofNat c.toNat)

section Os

-- What the operating system does at one call of readFd: select times out, or some
-- bytes have arrived, at least one unless the stream has ended.
inductive Arrival where
  | timeout
  | chunk (more : Nat)
  deriving DecidableEq,Repr

-- The bytes that are still to be read, and how often readFd was called.
structure Fd where
  rest : Bytes
  clock : Nat := 0

inductive ReadFd where
  | timeout
  | error
  | data (bytes : Bytes)
  deriving DecidableEq,Repr

variable (arrivals : Nat → Arrival)

def readFd (fd : Fd) (size : Nat) : ReadFd × Fd :=
  match arrivals fd.clock with
  | .timeout => (.timeout,{fd with clock := fd.clock + 1})
  | .chunk more =>
    let read := fd.rest.take (min (more + 1) size)
    if read.isEmpty then (.error,{fd with clock := fd.clock + 1})
    else (.data read,⟨fd.rest.drop (min (more + 1) size),fd.clock + 1⟩)

inductive ReadLineOutput where
  | success (line : Bytes)
  | timeout
  | errorOrEof
  deriving DecidableEq,Repr

-- The bytes before the first newline and those after it.
def findLine (bytes : Bytes) : Option (Bytes × Bytes) :=
  match bytes.span (· != LF) with
  | (_,[]) => none
  | (line,_ :: rest) => some (line,rest)

def buffSize : Nat := 1024 * 8

def readLineFromFd (fd : Fd) (buffer : Bytes) : ReadLineOutput × Bytes × Fd :=
  match findLine buffer with
  | some (line,buffer) => (.success line,buffer,fd)
  | none =>
    match readFd arrivals fd buffSize with
    | (.timeout,fd) => (.timeout,buffer,fd)
    | (.error,fd) => (.errorOrEof,buffer,fd)
    | (.data buf,fd) =>
      match findLine buf with
      | some (line,rest) => (.success (buffer ++ line),rest,fd)
      | none => (.timeout,buffer ++ buf,fd)

end Os

section Scan

def isSpace (c : UInt8) : Bool := c == 32 || (9 ≤ c && c ≤ 13)

def digitOf (c : UInt8) : Nat :=
  if 48 ≤ c && c ≤ 57 then c.toNat - 48
  else if 97 ≤ c && c ≤ 102 then c.toNat - 87
  else if 65 ≤ c && c ≤ 70 then c.toNat - 55
  else 16

-- The longest run of digits of a base; without digits the conversion fails.
def scanDigits (base : Nat) (input : Bytes) : Option Nat :=
  match (input.takeWhile (fun c => digitOf c < base)).map digitOf with
  | [] => none
  | digits => some (digits.foldl (fun value digit => value * base + digit) 0)

-- %i after its sign: the base is told by the first digits.
def scanMagnitude : Bytes → Option Nat
  | 48 :: 120 :: input => scanDigits 16 input
  | 48 :: 88 :: input => scanDigits 16 input
  | 48 :: input => scanDigits 8 (48 :: input)
  | input => scanDigits 10 input

-- The value of strtol, cut to an int.
def toInt (value : Int) : Int := (max (-2 ^ 63) (min (2 ^ 63 - 1) value)).bmod (2 ^ 32)

def scanInt (input : Bytes) : Option Int :=
  match input.dropWhile isSpace with
  | 45 :: input => (scanMagnitude input).map (fun value : Nat => toInt (-value))
  | 43 :: input => (scanMagnitude input).map (fun value : Nat => toInt value)
  | input => (scanMagnitude input).map (fun value : Nat => toInt value)

def contentLengthName : Bytes := ascii "Content-Length:"

-- sscanf(line.c_str(), "Content-Length: %i\r", &length); none where it assigns nothing.
def scanContentLength (line : Bytes) : Option Int :=
  let text := line.takeWhile (· != 0)
  if contentLengthName.isPrefixOf text then scanInt (text.drop contentLengthName.length) else none

end Scan

section FromClient

-- The exceptions of rapidjson and of the generated readers. Missing fields, wrong types
-- and wrong constants are plain DeserializationErrors; every SerializationError, such as
-- InvalidDiscriminantValueError, and a failed ENFORCE of rapidjson is none.
inductive Thrown where
  | invalidStringEnum (enumName value : Bytes)
  | deserialization (message : Bytes)
  | other (what : Bytes)
  deriving DecidableEq,Repr

def deserializationWhat (message : Bytes) : Bytes := ascii "Error deserializing JSON message: " ++ message

def invalidStringEnumWhat (enumName value : Bytes) : Bytes :=
  deserializationWhat (ascii "Invalid value for enum type `" ++ enumName ++ ascii "`: " ++ value)

inductive LSPErrorCodes where
  | ParseError
  | MethodNotFound
  | InvalidParams
  deriving DecidableEq,Repr

def LSPErrorCodes.code : LSPErrorCodes → Int
  | .ParseError => -32700
  | .MethodNotFound => -32601
  | .InvalidParams => -32602

structure SorbetErrorParams where
  code : Int
  message : Bytes
  deriving DecidableEq,Repr

-- What the reader thread passes on: a message of the client, or a SorbetError request
-- or notification in its place.
inductive LSPMessage (Raw : Type) where
  | raw (msg : Raw)
  | sorbetErrorRequest (id : Int) (params : SorbetErrorParams)
  | sorbetErrorNotification (params : SorbetErrorParams)
  deriving DecidableEq,Repr

def makeSorbetError {Raw : Type} (code : LSPErrorCodes) (message : Bytes) (id : Option Int) : LSPMessage Raw :=
  match id with
  | some id => .sorbetErrorRequest id ⟨code.code,message⟩
  | none => .sorbetErrorNotification ⟨code.code,message⟩

-- rapidjson's document and the readers that the build generates from the LSP types.
structure Deserializer (Document Raw : Type) where
  parse : Bytes → Option Document
  hasMember : Document → Bytes → Except Thrown Bool
  intMember : Document → Bytes → Option Int
  requestMessage : Document → Except Thrown Raw
  responseMessage : Document → Except Thrown Raw
  notificationMessage : Document → Except Thrown Raw

variable {Document Raw : Type} (json : Deserializer Document Raw)

def Deserializer.fromJSONValue (d : Document) : Except Thrown Raw := do
  if ← json.hasMember d (ascii "id") then
    if ← json.hasMember d (ascii "method") then json.requestMessage d else json.responseMessage d
  else json.notificationMessage d

def Deserializer.messageId (d : Document) : Except Thrown (Option Int) := do
  if ← json.hasMember d (ascii "id") then return json.intMember d (ascii "id") else return none

def Deserializer.fromClient (text : Bytes) : Except Thrown (LSPMessage Raw) :=
  match json.parse text with
  | none =>
    .ok (makeSorbetError .ParseError
      (ascii "Last LSP request: `" ++ text ++ ascii "` is not a valid json object") none)
  | some d => do
    let id ← json.messageId d
    match json.fromJSONValue d with
    | .ok raw => .ok (.raw raw)
    | .error (.invalidStringEnum enumName value) =>
      if enumName = ascii "LSPMethod" then
        .ok (makeSorbetError .MethodNotFound (ascii "Unsupported LSP method: " ++ value) id)
      else
        .ok (makeSorbetError .InvalidParams
          (ascii "Unable to deserialize LSP request: " ++ invalidStringEnumWhat enumName value) id)
    | .error (.deserialization message) =>
      .ok (makeSorbetError .InvalidParams
        (ascii "Unable to deserialize LSP request: " ++ deserializationWhat message) id)
    -- neither catch clause takes it
    | .error (.other what) => .error (.other what)

-- The text is JSON and an exception other than a DeserializationError leaves its reader.
def Deserializer.Escapes (text : Bytes) : Prop := ∃ d, json.parse text = some d ∧
  ((∃ thrown, json.messageId d = .error thrown) ∨ ∃ what, json.fromJSONValue d = .error (.other what))

end FromClient

section Read
variable {Document Raw : Type} (arrivals : Nat → Arrival) (json : Deserializer Document Raw)

inductive ReadResult where
  | timeout
  | success
  | errorOrEof
  deriving DecidableEq,Repr

-- The loop over the header lines: it ends with the lines read and the length, or
-- puts what was read back and gives up.
inductive Headers where
  | read (allRead : Bytes) (length : Int) (buffer : Bytes) (fd : Fd)
  | aborted (result : ReadResult) (buffer : Bytes) (fd : Fd)

def readHeaders : (left : Nat) → (allRead : Bytes) → (length : Int) → (buffer : Bytes) → Fd → Headers
  | 0,allRead,length,buffer,fd => .read allRead length buffer fd
  | left+1,allRead,length,buffer,fd =>
    match readLineFromFd arrivals fd buffer with
    | (.timeout,buffer,fd) => .aborted .timeout (allRead ++ buffer) fd
    | (.errorOrEof,buffer,fd) => .aborted .errorOrEof (allRead ++ buffer) fd
    | (.success line,buffer,fd) =>
      if line = [CR] then .read (allRead ++ (line ++ [LF])) length buffer fd
      else readHeaders left (allRead ++ (line ++ [LF])) ((scanContentLength line).getD length) buffer fd

-- The state that LSPFDInput keeps between calls, and its file descriptor.
structure LSPFDInput where
  buffer : Bytes := []
  fd : Fd

structure ReadOutput (Raw : Type) where
  result : ReadResult
  message : Option (LSPMessage Raw) := none

-- One call: the text that it gave to fromClient, and what it returned or threw.
structure Call (Raw : Type) where
  passed : Option Bytes := none
  outcome : Except Thrown (ReadOutput Raw)

def Call.result {Raw : Type} (call : Call Raw) : Option ReadResult := call.outcome.toOption.map ReadOutput.result

def Call.Threw {Raw : Type} (call : Call Raw) : Prop := call.outcome.toBool = false

instance {Raw : Type} (call : Call Raw) : Decidable call.Threw := inferInstanceAs (Decidable (_ = _))

-- The message stands at the front of the buffer and is erased once fromClient returns.
def takeMessage (length : Nat) (buffer : Bytes) (fd : Fd) : Call Raw × LSPFDInput :=
  let text := buffer.take length
  match json.fromClient text with
  | .error thrown => (⟨some text,.error thrown⟩,⟨buffer,fd⟩)
  | .ok msg => (⟨some text,.ok ⟨.success,some msg⟩⟩,⟨buffer.drop length,fd⟩)

def LSPFDInput.read (input : LSPFDInput) : Call Raw × LSPFDInput :=
  match readHeaders arrivals 10 [] (-1) input.buffer input.fd with
  | .aborted result buffer fd => (⟨none,.ok ⟨result,none⟩⟩,⟨buffer,fd⟩)
  | .read allRead length buffer fd =>
    if length < 0 then (⟨none,.ok ⟨.timeout,none⟩⟩,⟨buffer,fd⟩)
    else if buffer.length < length.toNat then
      let moreNeeded := length.toNat - buffer.length
      match readFd arrivals fd moreNeeded with
      | (.error,fd) => (⟨none,.ok ⟨.errorOrEof,none⟩⟩,⟨buffer,fd⟩)
      | (.timeout,fd) => (⟨none,.ok ⟨.timeout,none⟩⟩,⟨allRead ++ buffer,fd⟩)
      | (.data buf,fd) =>
        if buf.length ≠ moreNeeded then (⟨none,.ok ⟨.timeout,none⟩⟩,⟨allRead ++ (buffer ++ buf),fd⟩)
        else takeMessage json length.toNat (buffer ++ buf) fd
    else takeMessage json length.toNat buffer fd

-- What up to `n` calls do, in order. Nothing catches an exception in the reader thread:
-- after a call that threw there is no other.
def LSPFDInput.calls (input : LSPFDInput) : Nat → List (Call Raw) × LSPFDInput
  | 0 => ([],input)
  | n+1 =>
    let (calls,input) := input.calls n
    if ∃ call ∈ calls,call.Threw then (calls,input)
    else
      let (call,input) := input.read arrivals json
      (calls ++ [call],input)

end Read

section Frames

-- The decimal digits without leading zeros.
def decimal (n : Nat) : Bytes :=
  if n = 0 then [48] else ((Nat.digits 10 n).reverse).map (fun digit => UInt8.ofNat (48 + digit))

-- A header line other than the length and the empty one, without its CRLF.
structure OtherHeader (line : Bytes) : Prop where
  nonempty : line ≠ []
  single : LF ∉ line
  name : ¬contentLengthName <+: line

structure Frame where
  before : List Bytes
  after : List Bytes
  body : Bytes
  others : ∀ line ∈ before ++ after,OtherHeader line
  few : before.length + after.length + 1 ≤ 9
  small : body.length < 2 ^ 31

def contentLength (n : Nat) : Bytes := contentLengthName ++ 32 :: decimal n

def Frame.headers (frame : Frame) : List Bytes := frame.before ++ contentLength frame.body.length :: frame.after

def encodeLine (line : Bytes) : Bytes := line ++ [CR,LF]

def Frame.encode (frame : Frame) : Bytes := frame.headers.flatMap encodeLine ++ (encodeLine [] ++ frame.body)

end Frames
end Input
end Lsp
