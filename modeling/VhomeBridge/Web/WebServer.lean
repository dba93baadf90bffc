import VhomeBridge.Text
import VhomeBridge.Lib.Tape
import Mathlib.Data.List.Infix
import Mathlib.Data.BitVec

/-! The form handlers of the web server.  `POST_handler` and `AP_POST_handler` receive the body of
a request into a buffer on the stack, decode it if it is url-encoded, and use the text: the first
writes it to the file `deviceinfor`, the second takes the SSID and the password of the network from
it.  An access outside a buffer is a fault, `none`. -/

namespace VhomeBridge.Web

open Lib

/-! ### Receiving -/

/-- What `httpd_req_recv` returns: bytes that it has written to the start of the buffer,
`HTTPD_SOCK_ERR_TIMEOUT`, or another error. -/
inductive Recv
  | data (piece : Text)
  | timeout
  | fail

/-- A request.  Its URI is a path, and its body has a length that `content_len` can hold. -/
structure Request where
  uri : Text
  contentType : Text
  body : Text
  uri_path : uri ≠ []
  uri_string : '\x00' ∉ uri
  small : body.length < 2 ^ 32

/-- `remaining`, an `int`, at the start. -/
def Request.remaining (req : Request) : Int := (BitVec.ofNat 32 req.body.length).toInt

/-- How a handler fares until it has its text. -/
inductive Outcome (α : Type)
  | waiting
  | failed
  | done (result : α)

/-- The receive loop of both handlers, on what the calls of `httpd_req_recv` return. -/
def receive (size : Nat) : List Recv → Int → Tape Char → Option (Outcome (Tape Char))
  | [], remaining, buf => some (if 0 < remaining then .waiting else .done buf)
  | r :: script, remaining, buf =>
    if 0 < remaining then
      match r with
      | .data piece => do
        let buf ← buf.store size 0 piece
        receive size script (remaining - piece.length) buf
      | .timeout => receive size script remaining buf
      | .fail => some .failed
    else some (.done buf)

/-- The text that `POST_handler` uses, `buf[200]` holding anything at the start. -/
def postText (req : Request) (script : List Recv) (buf : Tape Char) : Option (Outcome Text) := do
  match ← receive 200 script req.remaining buf with
  | .waiting => return .waiting
  | .failed => return .failed
  | .done buf => return .done (← buf.string '\x00' 200 0)

/-- The text that `AP_POST_handler` uses, `buf[100]` holding anything at the start. -/
def apPostText (req : Request) (script : List Recv) (buf : Tape Char) : Option (Outcome Text) := do
  if 0 < req.remaining then
    match ← receive 100 script req.remaining buf with
    | .waiting => return .waiting
    | .failed => return .failed
    | .done buf =>
      let buf ← buf.store 100 req.body.length ['\x00']
      return .done (← buf.string '\x00' 100 0)
  else
    let buf ← buf.store 100 0 req.uri
    let buf ← buf.store 100 req.uri.length ['\x00']
    return .done (← buf.string '\x00' 100 0)

/-! ### Decoding -/

def isxdigit (c : Char) : Bool :=
  ('0' ≤ c && c ≤ '9') || ('A' ≤ c && c ≤ 'F') || ('a' ≤ c && c ≤ 'f')

/-- The value of a hexadecimal digit as `urldecode2` computes it. -/
def xdigitValue (a : Char) : Nat :=
  let a := if 'a' ≤ a then a.toNat - 32 else a.toNat
  if 'A'.toNat ≤ a then a - ('A'.toNat - 10) else a - '0'.toNat

/-- A byte copied, with `+` for a space. -/
def plusToSpace (c : Char) : Char := if c = '+' then ' ' else c

/-- `urldecode2`: the bytes written to `dst` before the last terminator. -/
def urldecode2 : Text → Text
  | [] => []
  | [c] => [plusToSpace c]
  | [c, a] => [plusToSpace c, plusToSpace a]
  | c :: a :: b :: src =>
    if c = '%' ∧ isxdigit a ∧ isxdigit b then
      Char.ofNat (16 * xdigitValue a + xdigitValue b) :: urldecode2 src
    else plusToSpace c :: urldecode2 (a :: b :: src)

/-- `strstr`: the string from the first occurrence of `pat` on. -/
def strstr (pat : Text) : Text → Option Text
  | [] => if pat = [] then some [] else none
  | c :: s => if pat <+: c :: s then some (c :: s) else strstr pat s

/-- `buf` itself, or what `buff_decode` holds when the content type is url-encoded. -/
def decodeText (size : Nat) (req : Request) (text : Text) : Option Text :=
  if (strstr "urlencoded".toList req.contentType).isSome then
    (intoBuffer size (urldecode2 text)).map (List.takeWhile (· ≠ '\x00'))
  else some text

/-! ### The network -/

/-- Where `password[64]` starts, right after `ssid[32]`. -/
def passwordOffset : Nat := 32

/-- The end of `password[64]`. -/
def credentialsSize : Nat := 96

/-- `strncpy` of a value, from after the `=` up to the `&`, and its terminator. -/
def copyValue (sub : Text) (i : Nat) (wifi : Tape Char) : Option (Tape Char) :=
  match strstr "&".toList sub with
  | none => some wifi
  | some index => do
    let len := sub.length - index.length - 3
    let wifi ← wifi.store credentialsSize i ((sub.drop 3).take len)
    wifi.store credentialsSize (i + len) ['\x00']

/-- `parse_wifi_uri`, on the memory of `ssid` and `password`. -/
def parseWifiUri (buf : Text) (wifi : Tape Char) : Option (Tape Char) :=
  match strstr "p1=".toList buf, strstr "s1=".toList buf, strstr "save=".toList buf with
  | some subP, some subS, some _ => do
    let wifi ← copyValue subP passwordOffset wifi
    copyValue subS 0 wifi
  | _, _, _ => some wifi

/-- The text that `POST_handler` writes to `deviceinfor`. -/
def postHandler (req : Request) (script : List Recv) (buf : Tape Char) :
    Option (Outcome Text) := do
  match ← postText req script buf with
  | .waiting => return .waiting
  | .failed => return .failed
  | .done text => return .done (← decodeText 200 req text)

/-- The SSID and the password after `AP_POST_handler` has parsed the body. -/
def apPostHandler (req : Request) (script : List Recv) (buf : Tape Char) :
    Option (Outcome (Tape Char)) := do
  match ← apPostText req script buf with
  | .waiting => return .waiting
  | .failed => return .failed
  | .done text =>
    let text ← decodeText 100 req text
    return .done (← parseWifiUri text fun _ => '\x00')

end VhomeBridge.Web
