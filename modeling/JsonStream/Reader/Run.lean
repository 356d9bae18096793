import JsonStream.Reader.Next

/-!
# Reading a list of chunks

`Reader.run` attaches chunks one after another and reads each of them up to the call that stops it.
`Reader.collect` reads a whole document and keeps its tokens.
-/

namespace JsonStream

/-- One call of `next`: what it answered, and the feed after it. -/
abbrev Call := Except ParseError Token × Feed

/-- Why reading a list of chunks stops early. -/
inductive ReadError where
  /-- A chunk is refused. -/
  | refused (error : FeedError)
  /-- The document is refused. -/
  | parse (error : ParseError)
deriving Repr, DecidableEq

namespace Call

/-- Whether the call asks for the next chunk. -/
def wantsMore : Call → Bool
  | (.ok .needMore, _) => true
  | _ => false

/-- The tokens that calls on one chunk report, without the request for more input. -/
def tokens : List Call → Except ParseError (List Token)
  | [] => .ok []
  | (.error e, _) :: _ => .error e
  | (.ok .needMore, _) :: _ => .ok []
  | (.ok token, _) :: rest => (tokens rest).map (token :: ·)

end Call

namespace Reader

/-- The calls on each chunk in turn. It stops for good at a refused chunk, at a failure and at the
end of the document. -/
def run (r : Reader) : List Bytes → List (List Call) × Reader
  | [] => ([], r)
  | chunk :: chunks =>
    match r.feed chunk with
    | .error _ => ([], r)
    | .ok feed =>
      let calls := feed.calls
      match calls.getLast? with
      | none => ([calls], feed.release)
      | some last =>
        if Call.wantsMore last then
          let more := last.2.release.run chunks
          (calls :: more.1, more.2)
        else ([calls], last.2.release)

/-- The tokens of the chunks, up to the end of the document. -/
def collectFrom (r : Reader) : List Bytes → Except ReadError (List Token)
  | [] => .ok []
  | chunk :: chunks => do
    let feed ← (r.feed chunk).mapError .refused
    let calls := feed.calls
    let tokens ← (Call.tokens calls).mapError .parse
    if tokens.getLast? = some .done then return tokens
    let after := (calls.getLast?.map Prod.snd).getD feed
    let more ← after.release.collectFrom chunks
    return tokens ++ more

/-- The tokens of a document cut into chunks. Empty chunks are skipped, so that none of them ends
the input too early, and the end of input follows the last one. -/
def collect (r : Reader) (chunks : List Bytes) : Except ReadError (List Token) :=
  r.collectFrom (chunks.filter (!·.isEmpty) ++ [[]])

end Reader

end JsonStream
