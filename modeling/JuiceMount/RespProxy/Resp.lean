import JuiceMount.Lib.Descent
import JuiceMount.RespProxy.Strconv

/-! RESP2/RESP3 reply frames: copying one logical reply to the client, parsing one on a side
connection, and writing a parsed one back. Every function reads a stream and returns what it
left. `size` is the size asked for the reader's buffer, `room` the number of nested calls the
goroutine's stack has space for; the writer does not fail. -/
namespace JuiceMount.RespProxy.Resp
open Descent

def maxBulk : ℤ := 512*2^20

/-- Bound on one reply aggregate parsed by `readValue`. -/
def maxReplyElems : ℤ := 2^20

inductive RespErr
  | eof | unexpectedEOF | protocol
  | replyType (t : UInt8)
  | encodeType (t : UInt8)
  deriving DecidableEq, Repr

def byte (c : Char) : UInt8 := c.toUInt8

def crlf : Bytes := [13,10]

/-- What `ReadSlice` returns: a line with its line feed, a full buffer without one, or the end of
the stream. -/
inductive Slice
  | line (b rest : Bytes)
  | full (b rest : Bytes)
  | eof

def readSlice (size : ℕ) (s : Bytes) : Slice :=
  match splitByte 10 (s.take size) with
  | some (b,_) => .line (b++[10]) (s.drop (b.length+1))
  | none => if size ≤ s.length then .full (s.take size) (s.drop size) else .eof

/-- The lines of `readLine`: full buffers are collected until the line ends. The first pass has
collected nothing; every pass takes a buffer's length, so `fuel` is the stream's. -/
def readSlices (size : ℕ) : ℕ → Bytes → Bytes → Except RespErr (Bytes × Bytes)
  | 0,_,_ => .error .eof
  | fuel+1,buf,s =>
    if buf.length > 64*2^10 then .error .protocol
    else
      match readSlice size s with
      | .line b rest => .ok (buf++b,rest)
      | .full b rest => readSlices size fuel (buf++b) rest
      | .eof => .error .eof

/-- One CRLF-terminated line without the CRLF. A buffer has at least 16 bytes. -/
def readLine (size : ℕ) (s : Bytes) : Except RespErr (Bytes × Bytes) :=
  match readSlices (max size 16) (s.length+1) [] s with
  | .error e => .error e
  | .ok (line,rest) =>
    if line.length<2 || line.getD (line.length-2) 0≠13 then .error .protocol
    else .ok (line.take (line.length-2),rest)

/-- Frames that are one line, bulks with a length, and aggregates with a count. -/
def lineTypes : Bytes := [byte '+',byte '-',byte ':',byte ',',byte '_',byte '#',byte '(']
def stringTypes : Bytes := [byte '+',byte '-',byte ',',byte '(',byte '#']
def bulkTypes : Bytes := [byte '$',byte '!',byte '=']
def aggregateTypes : Bytes := [byte '*',byte '~',byte '>',byte '%',byte '|']

def isPairs (t : UInt8) : Bool := t = byte '%' || t = byte '|'

structure FrameInfo where
  type : UInt8
  null : Bool
  deriving DecidableEq, Repr

/-- Copy one reply frame; the result holds the bytes written. An attribute is copied together
with the frame it annotates. -/
def copyFrame (size : ℕ) : ℕ → Bytes → Outcome RespErr (FrameInfo × Bytes) UInt8
  | 0,_ => .crash .stackOverflow
  | room+1,s =>
    match readLine size s with
    | .error e => .err e
    | .ok ([],_) => .err .protocol
    | .ok (t::arg,rest) =>
      let info : FrameInfo := { type := t, null := t = byte '_' }
      let out := t::arg++crlf
      if t∈lineTypes then .ok (info,out) rest
      else if t∈bulkTypes then
        match parseInt arg with
        | none => .err .protocol
        | some n =>
          if n<0 then .ok ({ info with null := true },out) rest
          else if n > maxBulk then .err .protocol
          else if rest.length < n.toNat+2 then .err .eof
          else .ok (info,out++rest.take (n.toNat+2)) (rest.drop (n.toNat+2))
      else if t∈aggregateTypes then
        match parseInt arg with
        | none => .err .protocol
        | some n =>
          if n<0 then .ok ({ info with null := true },out) rest
          else
            -- the doubled count wraps like the int64 it is held in
            let n := if isPairs t then int64 (n*2) else n
            (times (copyFrame size room) n.toNat rest).andThen (fun fs m =>
              let out := out++(fs.map Prod.snd).flatten
              if t = byte '|' then
                (copyFrame size room m).andThen (fun f r => .ok (f.1,out++f.2) r)
              else .ok (info,out) m)
      else .err (.replyType t)

/-- One parsed reply; the elements of a map are its keys and values in turn. -/
inductive Value
  | mk (type : UInt8) (str : Bytes) (int : ℤ) (elems : List Value) (null : Bool)

namespace Value

def type : Value → UInt8
  | mk t _ _ _ _ => t

def str : Value → Bytes
  | mk _ s _ _ _ => s

def int : Value → ℤ
  | mk _ _ i _ _ => i

def elems : Value → List Value
  | mk _ _ _ e _ => e

def null : Value → Bool
  | mk _ _ _ _ n => n

def ofNull (t : UInt8) : Value := mk t [] 0 [] true
def ofStr (t : UInt8) (s : Bytes) : Value := mk t s 0 [] false
def ofInt (i : ℤ) : Value := mk (byte ':') [] i [] false
def ofElems (t : UInt8) (e : List Value) : Value := mk t [] 0 e false

/-- `Err`: the text of an error reply. -/
def err (v : Value) : Option Bytes :=
  if v.type = byte '-' || v.type = byte '!' then some v.str else none

end Value

def readValue (size : ℕ) : ℕ → Bytes → Outcome RespErr Value UInt8
  | 0,_ => .crash .stackOverflow
  | room+1,s =>
    match readLine size s with
    | .error e => .err e
    | .ok ([],_) => .err .protocol
    | .ok (t::arg,rest) =>
      if t∈stringTypes then .ok (.ofStr t arg) rest
      else if t = byte '_' then .ok (.ofNull t) rest
      else if t = byte ':' then
        match parseInt arg with
        | none => .err .protocol
        | some n => .ok (.ofInt n) rest
      else if t∈bulkTypes then
        match parseInt arg with
        | none => .err .protocol
        | some n =>
          if n<0 then .ok (.ofNull t) rest
          else if n > maxBulk then .err .protocol
          else if rest=[] then .err .eof
          else if rest.length < n.toNat+2 then .err .unexpectedEOF
          else .ok (.ofStr t (rest.take n.toNat)) (rest.drop (n.toNat+2))
      else if t∈aggregateTypes then
        match parseInt arg with
        | none => .err .protocol
        | some n =>
          if n<0 then .ok (.ofNull t) rest
          else
            let n := if isPairs t then int64 (n*2) else n
            if n > maxReplyElems then .err .protocol
            -- make([]Value, 0, min(n, 1024)) panics on a negative capacity
            else if n<0 then .crash .badAllocation
            else
              (times (readValue size room) n.toNat rest).andThen (fun vs m =>
                if t = byte '|' then readValue size room m
                else .ok (.ofElems t vs) m)
      else .err (.replyType t)

mutual
def encodeValue : Value → Except RespErr Bytes
  | .mk t str int elems null =>
    if null then .ok (if t = byte '_' then t::crlf else t::formatInt (-1)++crlf)
    else if t∈stringTypes then .ok (t::str++crlf)
    else if t = byte ':' then .ok (t::formatInt int++crlf)
    else if t∈bulkTypes then .ok (t::formatUint str.length++crlf++(str++crlf))
    else if t∈aggregateTypes && t ≠ byte '|' then
      let n := if t = byte '%' then elems.length/2 else elems.length
      match encodeValues elems with
      | .error e => .error e
      | .ok b => .ok (t::formatUint n++crlf++b)
    else .error (.encodeType t)
termination_by structural v => v

def encodeValues : List Value → Except RespErr Bytes
  | [] => .ok []
  | v::vs =>
    match encodeValue v with
    | .error e => .error e
    | .ok b =>
      match encodeValues vs with
      | .error e => .error e
      | .ok bs => .ok (b++bs)
termination_by structural vs => vs
end

end JuiceMount.RespProxy.Resp
