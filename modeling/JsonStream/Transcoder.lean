import JsonStream.Visitor
import JsonStream.Writer.Drain

/-!
# Writing what is read

A transcoder hands every token of a document to a writer as soon as it is read, and so reformats a
document without holding it. Keys are written like strings. Output is handed out in slices of one
size.
-/

namespace JsonStream

/-- A writer with the output it has handed out. -/
structure Transcoder where
  writer : Writer
  /-- The size of the output buffer. -/
  capacity : Nat
  /-- The slices handed out, the last one first. -/
  recent : List Bytes := []
deriving Repr

/-- How transcoding ends. -/
inductive TranscodeEnd where
  | finished
  /-- The chunks are used up before the document ends. -/
  | unfinished
  | parser (error : ParseError)
  | writer (error : WriterError)
  | feed (error : FeedError)
deriving Repr, DecidableEq

namespace Transcoder

/-- All that has been handed out. -/
def output (t : Transcoder) : Bytes :=
  t.recent.reverse.flatten

/-- Writes one item and hands all of it out. -/
def emit (item : Item) : EStateM WriterError Transcoder Unit := fun t =>
  match t.writer.writeAll item t.capacity with
  | (.error e, writer) => .error e { t with writer }
  | (.ok slices, writer) => .ok () { t with writer, recent := slices.reverse ++ t.recent }

/-- The scalar that writes a number. -/
def numberScalar : NumberValue → Scalar
  | .float value => .float value
  | .components value => .components value
  | .text literal => .literal literal

/-- The visitor that writes every token. -/
def visitor : Visitor WriterError Transcoder where
  null := emit (.scalar .null)
  bool b := emit (.scalar (.bool b))
  number n := emit (.scalar (numberScalar n))
  integer i := emit (.scalar (.integer i))
  string s := emit (.scalar (.string s))
  beginArray := emit .beginArray
  endArray := emit .endArray
  beginObject := emit .beginObject
  endObject := emit .endObject

/-- Transcodes chunk after chunk, until one of them ends it. -/
def run (t : Transcoder) (r : Reader) : List Bytes → TranscodeEnd × Transcoder
  | [] => (.unfinished, t)
  | chunk :: chunks =>
    match r.feed chunk with
    | .error e => (.feed e, t)
    | .ok feed =>
      match feed.drive visitor t with
      | ⟨.error (.parse e), t, _⟩ => (.parser e, t)
      | ⟨.error (.visitor e), t, _⟩ => (.writer e, t)
      | ⟨.ok .finished, t, _⟩ => (.finished, t)
      | ⟨.ok .needMore, t, feed⟩ => t.run feed.release chunks

/-- Reads the chunks, then the end of input, and writes what is read. -/
def transcode (input : ReaderOptions) (output : WriterOptions) (capacity : Nat)
    (chunks : List Bytes) : TranscodeEnd × Transcoder :=
  run ⟨{ options := output }, capacity, []⟩ { options := input } (chunks ++ [[]])

end Transcoder

end JsonStream
