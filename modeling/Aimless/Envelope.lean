import Aimless.Lib.Words

/-!
# The wire envelope

`envelope.go`: a 20-byte header (version, type, sequence number, timestamp, payload length, all
little-endian) followed by the payload.
-/

namespace Aimless

open Words

def envelopeVersion : UInt8 := 1

def envelopeHeaderSize : ℕ := 20

def maxPayloadSize : ℕ := 65535

abbrev EnvelopeType := UInt8

def typeMsg : EnvelopeType := 1
def typeAck : EnvelopeType := 2
def typeStatus : EnvelopeType := 3
def typeProbe : EnvelopeType := 4
def typeFile : EnvelopeType := 5

inductive EnvelopeError where
  | badVersion
  | truncated
  | oversized
  deriving DecidableEq, Repr

structure Envelope where
  version : UInt8
  type : EnvelopeType
  seq : UInt64
  ts : Int64
  payload : Bytes
  deriving DecidableEq, Repr

/-- `b[i:j]`. -/
def slice (b : Bytes) (i j : ℕ) : Bytes := (b.drop i).take (j - i)

def Envelope.encode (e : Envelope) : Except EnvelopeError Bytes :=
  if e.payload.length > maxPayloadSize then .error .oversized
  else .ok ([e.version, e.type] ++ putLE 8 e.seq.toNat ++ putLE 8 e.ts.toUInt64.toNat
    ++ putLE 2 e.payload.length ++ e.payload)

def decodeEnvelope (data : Bytes) : Except EnvelopeError Envelope :=
  if data.length < envelopeHeaderSize then .error .truncated
  else if data.getD 0 0 ≠ envelopeVersion then .error .badVersion
  else
    let payloadLen := getLE (slice data 18 20)
    if data.length < envelopeHeaderSize + payloadLen then .error .truncated
    else .ok {
      version := data.getD 0 0
      type := data.getD 1 0
      seq := UInt64.ofNat (getLE (slice data 2 10))
      ts := (UInt64.ofNat (getLE (slice data 10 18))).toInt64
      payload := slice data envelopeHeaderSize (envelopeHeaderSize + payloadLen) }

/-! ### Reads that are checked -/

/-- `b[i]`, where it is in range. -/
def indexChecked (b : Bytes) (i : ℕ) : Option UInt8 := b[i]?

/-- `b[i:j]`, where it is in range. -/
def sliceChecked (b : Bytes) (i j : ℕ) : Option Bytes :=
  if i ≤ j ∧ j ≤ b.length then some (slice b i j) else none

/-- `copy(dst, src)`: what `dst` holds then. -/
def copyBytes (dst src : Bytes) : Bytes := src.take dst.length ++ dst.drop src.length

/-- `DecodeEnvelope` with each read of `data` checked; `none` is a read outside it. -/
def decodeEnvelopeChecked (data : Bytes) : Option (Except EnvelopeError Envelope) :=
  if data.length < envelopeHeaderSize then some (.error .truncated)
  else do
    let version ← indexChecked data 0
    if version ≠ envelopeVersion then return .error .badVersion
    let payloadLen := getLE (← sliceChecked data 18 20)
    if data.length < envelopeHeaderSize + payloadLen then return .error .truncated
    let payload := copyBytes (List.replicate payloadLen 0)
      (← sliceChecked data envelopeHeaderSize data.length)
    let type ← indexChecked data 1
    let seq := UInt64.ofNat (getLE (← sliceChecked data 2 10))
    let ts := (UInt64.ofNat (getLE (← sliceChecked data 10 18))).toInt64
    return .ok { version, type, seq, ts, payload }

def encodeAck (seq : UInt64) : Except EnvelopeError Bytes :=
  Envelope.encode { version := envelopeVersion, type := typeAck, seq, ts := 0, payload := [] }

end Aimless
