import Aimless.Lib.Posix
import Aimless.Api
import Aimless.Service

/-!
# Received files

`gtkui.py`, the receiving side of a file transfer: chunks that arrive live are collected per
conversation and transfer, a transfer fetched from the daemon is taken as a whole, and a complete
one is written below the attachment directory and recorded in the store.  What only draws (status
rows, previews, notifications) is left out.
-/

namespace Aimless

open Python (Str Exc Json Dict CodePoint)

abbrev slash : CodePoint := ⟨47, by decide⟩
abbrev period : CodePoint := ⟨46, by decide⟩

abbrev FileSystem := Posix.Fs CodePoint Bytes

/-- A name `os.fsencode` takes and the kernel can hold. -/
def validName (name : Str) : Bool :=
  name.all fun c => c.val ≠ 0
    ∧ (c.val < 0xD800 ∨ 0xDFFF < c.val ∨ 0xDC80 ≤ c.val ∧ c.val ≤ 0xDCFF)

def fsExc : Posix.FsError → Exc
  | .name => .valueError
  | .kind => .osError

/-- `attachments_dir()` and the directory the process runs in. -/
structure AttachmentsDir where
  path : Str
  cwd : Posix.Pos CodePoint
  path_ne_nil : path ≠ []
  noParent : [period, period] ∉ path.splitOn slash

def AttachmentsDir.pos (root : AttachmentsDir) : Posix.Pos CodePoint :=
  Posix.resolve slash period root.cwd root.path

/-- The characters `[A-Za-z0-9 ._-]`. -/
def allowedChar (c : CodePoint) : Bool :=
  (65 ≤ c.val ∧ c.val ≤ 90) ∨ (97 ≤ c.val ∧ c.val ≤ 122) ∨ (48 ≤ c.val ∧ c.val ≤ 57)
    ∨ c.val = 32 ∨ c.val = 46 ∨ c.val = 95 ∨ c.val = 45

/-- `clean.strip(" .")`. -/
def stripDots (s : Str) : Str :=
  let strip := List.dropWhile fun c : CodePoint => c.val = 32 ∨ c.val = 46
  (strip (strip s).reverse).reverse

def sanitizeFilename (name : Str) : Str :=
  let clean := stripDots (name.filter allowedChar)
  (if clean = [] then Python.str ['f', 'i', 'l', 'e'] else clean).take 64

/-- A transfer being collected; `info` is the chunk that opened it. -/
structure FileBuf where
  total : Json
  info : List (Str × Json)
  chunks : List (ℕ × Bytes) := []
  failed : Bool := false

/-- The part of the window's state that files touch.  `acks` are the `ackfile` requests made. -/
structure Gui where
  bufs : List ((Json × Str) × FileBuf) := []
  fs : FileSystem := {}
  store : Store := {}
  acks : List (Text × Str) := []

/-- `d[index] = data`. -/
def setChunk (chunks : List (ℕ × Bytes)) (index : ℕ) (data : Bytes) : List (ℕ × Bytes) :=
  if chunks.any fun e => e.1 = index then
    chunks.map fun e => if e.1 = index then (index, data) else e
  else chunks ++ [(index, data)]

def sameKey (a b : Json × Str) : Bool := a.1.keyEq b.1 && a.2 = b.2

/-- `fields.get(k) or fallback`. -/
def getOr (fields : List (Str × Json)) (k : Str) (fallback : Json) : Json :=
  match Python.get? fields k with
  | some v => if v.truthy then v else fallback
  | none => fallback

variable (L : Libs)

/-- A chunk that opens and agrees with its routing header. -/
def checkedChunk (payload : Str) : Option (FilePayload × List (Str × Json)) :=
  match parseFilePayload payload with
  | .error _ => none
  | .ok parsed =>
    match openFileChunk L parsed.sealed with
    | .error _ => none
    | .ok chunk =>
      if (Python.get? chunk Field.transferId).any (·.eqStr (Python.str (Hex.encode parsed.tid)))
          ∧ (Python.get? chunk Field.index).any (·.eqInt parsed.index)
          ∧ (Python.get? chunk Field.total).any (·.eqInt parsed.total)
      then some (parsed, chunk)
      else none

/-- `base64.b64decode(chunk["data"])`. -/
def chunkData (chunk : List (Str × Json)) : Except Exc Bytes :=
  match Python.get? chunk Field.data with
  | none => .error .keyError
  | some (.str s) => Python.b64decode s
  | some _ => .error .typeError

namespace Gui

variable (root : AttachmentsDir)

/-- `_store_attachment`: the path written. -/
def storeAttachment (fs : FileSystem) (conv : Json) (tid : Str) (filename : Json) (data : Bytes) :
    Except Exc Str × FileSystem :=
  match conv with
  | .str conv =>
    let d := Posix.join slash root.path conv
    match fs.makedirs period validName (Posix.origin slash root.cwd d) (d.splitOn slash) with
    | (.error e, fs) => (.error (fsExc e), fs)
    | (.ok (), fs) =>
      match filename with
      | .str filename =>
        let path := Posix.join slash d (tid ++ Python.str ['-'] ++ sanitizeFilename filename)
        let tmp := path ++ Python.str ['.', 't', 'm', 'p']
        match fs.write (Posix.resolve slash period root.cwd tmp) data with
        | (.error e, fs) => (.error (fsExc e), fs)
        | (.ok (), fs) =>
          match fs.replace (Posix.resolve slash period root.cwd tmp)
              (Posix.resolve slash period root.cwd path) with
          | (.error e, fs) => (.error (fsExc e), fs)
          | (.ok (), fs) => (.ok path, fs)
      | _ => (.error .typeError, fs)
  | _ => (.error .typeError, fs)

/-- `_finalize_attachment`: whether the transfer was stored. -/
def finalizeAttachment (g : Gui) (conv : Json) (node : Text) (buf : FileBuf) (seq : ℕ) (ts : ℤ) :
    Except Exc Bool × Gui :=
  match reassembleFile buf.chunks buf.total with
  | .error e => (.error e, g)
  | .ok none => (.ok false, g)
  | .ok (some rebuilt) =>
    let digest := Python.str (Hex.encode (L.sha256 rebuilt))
    if ((Python.get? buf.info Field.sha256).getD (.str [])).eqStr digest = false then (.ok false, g)
    else
      match Python.get? buf.info Field.transferId with
      | some (.str tid) =>
        let filename := getOr buf.info Field.filename (.str (Python.str ['f', 'i', 'l', 'e']))
        match storeAttachment root g.fs conv tid filename rebuilt with
        | (.error e, fs) => (.error e, { g with fs })
        | (.ok path, fs) =>
          let attachment : Dict := [
            (.str (Python.str ['p', 'a', 't', 'h']), .str path),
            (.str Field.filename, filename),
            (.str Field.mimeHint, (Python.get? buf.info Field.mimeHint).getD (.str [])),
            (.str (Python.str ['s', 'i', 'z', 'e']), .int rebuilt.length)]
          match g.store.ingest L conv node seq (.int ts) filename (some attachment) with
          | (.error e, store) => (.error e, { g with fs, store })
          | (.ok _, store) => (.ok true, { g with fs, store, acks := g.acks ++ [(node, tid)] })
      | _ => (.error .keyError, g)   -- a chunk that was checked has its transfer id

/-- The transfer a chunk belongs to; its first chunk opens it. -/
def bufFor (g : Gui) (key : Json × Str) (chunk : List (Str × Json)) : FileBuf × Gui :=
  match g.bufs.find? fun e => sameKey e.1 key with
  | some e => (e.2, g)
  | none =>
    let buf : FileBuf := { total := (Python.get? chunk Field.total).getD .null, info := chunk }
    (buf, { g with bufs := g.bufs ++ [(key, buf)] })

/-- The data of a chunk added to its transfer, which is stored and forgotten once it is complete.  A
raise on the way leaves it where it is. -/
def addChunk (g : Gui) (node : Text) (ev : RecvEvent) (key : Json × Str) (buf : FileBuf)
    (index : ℕ) (data : Bytes) : Except Exc Unit × Gui :=
  let buf := { buf with chunks := setChunk buf.chunks index data }
  let update := fun e : (Json × Str) × FileBuf => if sameKey e.1 key then (e.1, buf) else e
  let g := { g with bufs := g.bufs.map update }
  if buf.total.eqInt buf.chunks.length then
    match g.finalizeAttachment L root key.1 node buf ev.seqOrZero (ev.ts.getD 0).toInt with
    | (.error e, g) => (.error e, g)
    | (.ok _, g) => (.ok (), { g with bufs := g.bufs.filter fun e => !sameKey e.1 key })
  else (.ok (), g)

/-- `_incoming_file`; `node` is the sender, which `DeliverFileMsg` always names. -/
def incomingFile (g : Gui) (node : Text) (ev : RecvEvent) : Except Exc Unit × Gui :=
  match ev.payload.bind fun payload => checkedChunk L (Python.str payload) with
  | none => (.ok (), g)
  | some (parsed, chunk) =>
    let conv := getOr chunk Field.conv (.str (Python.str node))
    if conv.hashable = false then (.error .typeError, g)
    else
      let key := (conv, Python.str (Hex.encode parsed.tid))
      let (buf, g) := g.bufFor key chunk
      if buf.failed then (.ok (), g)
      else
        match chunkData chunk with
        | .error e => (.error e, g)
        | .ok data => g.addChunk L root node ev key buf parsed.index data

/-- The loop of `_process_fetched_transfer` over the entries of a transfer. -/
def collectChunks : List AttachEntry → FileBuf → (seq : ℕ) → (ts : ℤ) →
    Except Exc (FileBuf × ℕ × ℤ)
  | [], buf, seq, ts => .ok (buf, seq, ts)
  | entry :: entries, buf, seq, ts =>
    match checkedChunk L (Python.str entry.payload) with
    | none => collectChunks entries buf seq ts
    | some (parsed, chunk) =>
      match chunkData chunk with
      | .error e => .error e
      | .ok data =>
        let buf := { buf with
          total := (Python.get? chunk Field.total).getD .null
          info := chunk
          chunks := setChunk buf.chunks parsed.index data }
        collectChunks entries buf (max seq entry.seq.toNat) (max ts entry.ts.toInt)

/-- `_process_fetched_transfer`; the transfer id it was asked for is not used. -/
def processFetchedTransfer (g : Gui) (node : Text) (_tid : Text) (entries : List AttachEntry) :
    Except Exc Unit × Gui :=
  match collectChunks L entries { total := .int 0, info := [] } 0 0 with
  | .error e => (.error e, g)
  | .ok (buf, seq, ts) =>
    if buf.chunks = [] then (.ok (), g)
    else
      let conv := getOr buf.info Field.conv (.str (Python.str node))
      match finalizeAttachment L root g conv node buf seq ts with
      | (.error e, g) => (.error e, g)
      | (.ok _, g) => (.ok (), g)

end Gui

/-- What brings a file to the window: a live chunk, or a transfer that the daemon gave for `node`,
which it does for the hex form of a key only. -/
inductive FileMove where
  | live (sender : PublicKey) (seq : UInt64) (ts : Int64) (payload : Bytes)
  | fetched (node tid : Text) (entries : List AttachEntry)

namespace Gui

variable (root : AttachmentsDir)

def step (g : Gui) : FileMove → Gui
  | .live sender seq ts payload =>
    match (Event.recvFile sender seq ts payload).toRecv with
    | none => g
    | some ev => (g.incomingFile L root (Hex.encode sender) ev).2
  | .fetched node tid entries =>
    match decodeFromKey node with
    | .error _ => g
    | .ok _ => (g.processFetchedTransfer L root node tid entries).2

def run (g : Gui) (moves : List FileMove) : Gui := moves.foldl (step L root) g

end Gui

end Aimless
