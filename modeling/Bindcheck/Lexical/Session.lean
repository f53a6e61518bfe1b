/-
Bindcheck.Lexical.Session — a text that is read request by request.

A session keeps a source and a cursor in it. Each request reads something from the cursor and
leaves it where that reading came to rest, also after a failure; `restart` alone goes back.
-/
import Bindcheck.Lexical.Numeral
import Bindcheck.Lexical.Quoted

namespace Bindcheck

namespace Lexical

/-- A source with a place in it. -/
structure Session where
  source : Text
  cursor : Cursor
  deriving DecidableEq, Repr

/-- What can be asked of a session. -/
inductive Request where
  | skipLayout
  | atEnd
  | char (c : Char)
  | word (letters : Text)
  | name
  | integer
  | quoted
  | spanSince (start : Nat)
  | restart
  deriving DecidableEq, Repr

/-- What a session answers. -/
inductive Answer where
  | done
  | flag (value : Bool)
  | name (found : Option String)
  | integer (found : Option Int64)
  | quoted (found : Option String)
  | span (value : Span)
  | failed (failure : Failure)
  deriving DecidableEq, Repr

namespace Session

/-- A session at the start of a source. -/
def start (source : Text) : Session := ⟨source, Cursor.start source⟩

/-- Reads from the cursor and leaves it where reading came to rest. -/
def read {α : Type} (session : Session) (reader : Reader α) (answer : α → Answer) :
    Answer × Session :=
  match reader.run session.cursor with
  | .ok a c => (answer a, { session with cursor := c })
  | .error f c => (.failed f, { session with cursor := c })

/-- The answer to a request, and the session after it. -/
def perform (session : Session) : Request → Answer × Session
  | .skipLayout => session.read Reader.skipLayout fun _ => .done
  | .atEnd => session.read Reader.atEnd .flag
  | .char c => session.read (Reader.accept c) .flag
  | .word letters =>
    session.read (Reader.token (.word letters)) fun found => .flag found.isSome
  | .name => session.read (Reader.token .name) .name
  | .integer => session.read Reader.integer .integer
  | .quoted => session.read Reader.quoted .quoted
  | .spanSince offset => session.read (Reader.spanSince offset) .span
  | .restart => (.done, start session.source)

/-- The session after a sequence of requests. -/
def performAll (session : Session) (requests : List Request) : Session :=
  requests.foldl (fun s request => (s.perform request).2) session

end Session

end Lexical

end Bindcheck
