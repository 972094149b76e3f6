import MiniRedis.Model.Client
import MiniRedis.Model.Netio

/-! # The loop of `client.cpp`

The client reads a line, sends its words as a request and waits for the response. The terminal and the
socket are the environment: a line, and what `write()` and `read()` return, are the inputs of a machine
that takes one of them at a time. `ClientAt` is where the client stands between two such calls. -/

namespace MiniRedis

/-! ## Lines -/

/-- The loop `iss >> tok`; `tok` is what was read of the next token. -/
def tokenizeLoop : (tok line : Bytes) → List Bytes
  | tok, [] => if tok.isEmpty then [] else [tok]
  | tok, c :: line =>
    if isSpace c then
      if tok.isEmpty then tokenizeLoop [] line else tok :: tokenizeLoop [] line
    else tokenizeLoop (tok ++ [c]) line

/-- The words of a line. -/
def tokenize (line : Bytes) : List Bytes := tokenizeLoop [] line

def exitText : Bytes := ascii ['e', 'x', 'i', 't']
def quitText : Bytes := ascii ['q', 'u', 'i', 't']

/-! ## The machine -/

/-- Why the loop was left. -/
inductive ClientEnd where
  | endOfInput
  | quit
  | writeError
  | readError
  | badResponseLength
  | badResponse
  deriving DecidableEq

/-- Where the client stands: in `std::getline`, in `write_all` with the bytes that are still to be
written, in `read_all` with the bytes that were read, or behind the loop. -/
inductive ClientAt where
  | prompt
  | writing (rest : Bytes)
  | header (got : Bytes)
  | payload (len : UInt32) (got : Bytes)
  | closed (why : ClientEnd)

/-- The client. The requests that were given to the socket and what was printed for each response are in
order; so are the bytes that `write()` took and those that `read()` returned. -/
structure Client where
  phase : ClientAt := .prompt
  asked : List (List Bytes) := []
  printed : List (List Printed) := []
  wrote : Bytes := []
  read : Bytes := []

/-- What the environment does next. -/
inductive ClientInput where
  /-- What `std::getline` returns, none at the end of the input. -/
  | line (line : Option Bytes)
  | write (rv : WriteResult)
  | read (rv : ReadResult)

/-- `read()` and `write()` are called where they can be, and never return more than they were asked for;
`read_all` and `write_all` assert this. -/
def ClientAt.Allows : ClientAt → ClientInput → Prop
  | .prompt, .line _ => True
  | .writing rest, .write (.accepted n) => n ≤ rest.length
  | .writing _, .write _ => True
  | .header got, .read (.data chunk) => 0 < chunk.length ∧ got.length + chunk.length ≤ 4
  | .payload len got, .read (.data chunk) => 0 < chunk.length ∧ got.length + chunk.length ≤ len.toNat
  | .header _, .read _ | .payload _ _, .read _ => True
  | _, _ => False

namespace Client

/-- The body of the loop up to the first `write()`. -/
def handleLine (line : Option Bytes) (c : Client) : Client :=
  match line with
  | none => { c with phase := .closed .endOfInput }
  | some line =>
    match tokenize line with
    | [] => c
    | word :: words =>
      if word = exitText ∨ word = quitText then { c with phase := .closed .quit }
      else
        match sendRequest (word :: words) with
        | none => { c with phase := .closed .writeError }
        | some frame => { c with phase := .writing frame, asked := c.asked ++ [word :: words] }

/-- A turn of the loop of `write_all`. -/
def handleWrite (rest : Bytes) (rv : WriteResult) (c : Client) : Client :=
  match rv with
  | .again | .failed | .accepted 0 => { c with phase := .closed .writeError }
  | .accepted n =>
    { c with
      wrote := c.wrote ++ rest.take n
      phase := if (rest.drop n).isEmpty then .header [] else .writing (rest.drop n) }

/-- The end of `read_response`, and of the body of the loop. -/
def finishResponse (len : UInt32) (payload : Bytes) (c : Client) : Result Client := do
  let (rv, out) ← printResponse (payload.length + 1) payload
  if rv > 0 ∧ rv.toUInt32 ≠ len then
    return { c with phase := .closed .badResponse, printed := c.printed ++ [out ++ [.badResponse]] }
  else if rv < 0 then
    return { c with phase := .closed .badResponse, printed := c.printed ++ [out] }
  else return { c with phase := .prompt, printed := c.printed ++ [out] }

/-- The turn of the loop of `read_all` over the payload that reads `chunk`, if there is one. -/
def handlePayload (len : UInt32) (got : Bytes) (c : Client) : Result Client :=
  if got.length < len.toNat then return { c with phase := .payload len got }
  else c.finishResponse len got

/-- The turn of the loop of `read_all` over the header. -/
def handleHeader (got : Bytes) (c : Client) : Result Client :=
  if got.length < 4 then return { c with phase := .header got }
  else
    let payloadLen : UInt32 := .ofNat (leDecode got)
    if payloadLen.toNat > kMaxMsg then return { c with phase := .closed .badResponseLength }
    else c.handlePayload payloadLen []

/-- One step of the client. -/
def step (c : Client) : ClientInput → Result Client
  | .line line =>
    match c.phase with
    | .prompt => return c.handleLine line
    | _ => return c
  | .write rv =>
    match c.phase with
    | .writing rest => return c.handleWrite rest rv
    | _ => return c
  | .read (.data chunk) =>
    let c' := { c with read := c.read ++ chunk }
    match c.phase with
    | .header got => c'.handleHeader (got ++ chunk)
    | .payload len got => c'.handlePayload len (got ++ chunk)
    | _ => return c
  | .read _ =>
    match c.phase with
    | .header _ | .payload _ _ => return { c with phase := .closed .readError }
    | _ => return c

end Client

end MiniRedis
