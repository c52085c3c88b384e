import Flz.Lib.Table

/-! # The response automaton

`httpclient_parser.rl` as `httpclient_parser.cc` runs it, for responses and for the heads of
chunks. The error state is 0 and the first final state is 120; after the others from 121 on the
loop is left as well.
-/
namespace Flz.Http
open Lib Lib.ByteClass

inductive HttpClientParserAction
  | mark | startField | writeField | writeContentLen | writeConnectionClose | writeValue
  | reasonPhrase | statusCode | httpVersion | chunkSize | transChunked | done
  deriving DecidableEq, Repr

namespace ResponseTable

def token : ByteClass :=
  [(33, 33), (35, 39), (42, 43), (45, 46), (48, 57), (65, 90), (94, 122), (124, 124), (126, 126)]
def space : ByteClass := [(9, 13), (32, 32)]

/-- A row inside the name of a field that may still be a name of its own. -/
def nameRow (c : ByteClass) (next : ℕ) : List (Arc HttpClientParserAction) :=
  [⟨byte 58, [.writeField], 22⟩, ⟨c, [], next⟩, ⟨token, [], 21⟩]

/-- A row inside a value that may still be a value of its own. -/
def valueRow (c : ByteClass) (next : ℕ) : List (Arc HttpClientParserAction) :=
  [⟨byte 10, [.writeValue], 20⟩, ⟨byte 13, [.writeValue], 24⟩, ⟨c, [], next⟩, ⟨any, [], 23⟩]

/-- The states up to 24: chunk heads, the status line, fields of any name. -/
def lineRows : List (List (Arc HttpClientParserAction)) :=
  [[], [⟨byte 72, [.mark], 8⟩, ⟨xdigit, [.mark], 2⟩],
   [⟨byte 10, [.chunkSize, .done], 120⟩, ⟨byte 13, [.chunkSize], 3⟩,
     ⟨byte 59, [.chunkSize], 4⟩, ⟨xdigit, [], 2⟩],
   [⟨byte 10, [.done], 120⟩], [⟨token, [.startField], 5⟩],
   [⟨byte 10, [.writeField, .mark, .writeValue, .done], 120⟩,
     ⟨byte 13, [.writeField, .mark, .writeValue], 3⟩,
     ⟨byte 59, [.writeField, .mark, .writeValue], 4⟩, ⟨byte 61, [.writeField, .mark], 6⟩,
     ⟨token, [], 5⟩],
   [⟨token, [.mark], 7⟩],
   [⟨byte 10, [.writeValue, .done], 120⟩, ⟨byte 13, [.writeValue], 3⟩,
     ⟨byte 59, [.writeValue], 4⟩, ⟨token, [], 7⟩],
   [⟨byte 84, [], 9⟩], [⟨byte 84, [], 10⟩], [⟨byte 80, [], 11⟩], [⟨byte 47, [], 12⟩],
   [⟨digit, [], 13⟩], [⟨byte 46, [], 14⟩, ⟨digit, [], 13⟩], [⟨digit, [], 15⟩],
   [⟨byte 32, [.httpVersion], 16⟩, ⟨digit, [], 15⟩], [⟨digit, [.mark], 17⟩],
   [⟨byte 32, [.statusCode], 18⟩, ⟨digit, [], 17⟩], [⟨[(0, 9), (11, 255)], [.mark], 19⟩],
   [⟨byte 10, [.reasonPhrase], 20⟩, ⟨byte 13, [.reasonPhrase], 24⟩, ⟨any, [], 19⟩],
   [⟨byte 10, [.done], 120⟩, ⟨byte 13, [], 3⟩, ⟨anyCase 67, [.startField], 25⟩,
     ⟨anyCase 84, [.startField], 44⟩, ⟨token, [.startField], 21⟩],
   [⟨byte 58, [.writeField], 22⟩, ⟨token, [], 21⟩],
   [⟨byte 10, [.mark, .writeValue], 20⟩, ⟨byte 13, [.mark, .writeValue], 24⟩,
     ⟨space, [.mark], 22⟩, ⟨any, [.mark], 23⟩],
   [⟨byte 10, [.writeValue], 20⟩, ⟨byte 13, [.writeValue], 24⟩, ⟨any, [], 23⟩],
   [⟨byte 10, [], 20⟩]]

/-- The states up to 43: `Connection`. -/
def connectionRows : List (List (Arc HttpClientParserAction)) :=
  [nameRow (anyCase 79) 26, nameRow (anyCase 78) 27,
   [⟨byte 58, [.writeField], 22⟩, ⟨anyCase 78, [], 28⟩, ⟨anyCase 84, [], 101⟩,
     ⟨token, [], 21⟩],
   nameRow (anyCase 69) 29, nameRow (anyCase 67) 30, nameRow (anyCase 84) 31,
   nameRow (anyCase 73) 32, nameRow (anyCase 79) 33, nameRow (anyCase 78) 34,
   [⟨byte 58, [.writeField], 35⟩, ⟨token, [], 21⟩],
   [⟨byte 10, [.mark, .writeValue], 36⟩, ⟨byte 13, [.mark, .writeValue], 95⟩,
     ⟨anyCase 67, [.mark], 96⟩, ⟨space, [.mark], 35⟩, ⟨any, [.mark], 23⟩],
   [⟨byte 10, [.done], 122⟩, ⟨byte 13, [], 89⟩, ⟨anyCase 67, [.startField], 90⟩,
     ⟨anyCase 84, [.startField], 44⟩, ⟨space, [], 37⟩, ⟨token, [.startField], 21⟩],
   [⟨anyCase 67, [], 38⟩, ⟨space, [], 37⟩], [⟨anyCase 76, [], 39⟩], [⟨anyCase 79, [], 40⟩],
   [⟨anyCase 83, [], 41⟩], [⟨anyCase 69, [], 42⟩], [⟨byte 10, [], 43⟩, ⟨byte 13, [], 88⟩],
   [⟨byte 10, [.writeConnectionClose, .done], 120⟩, ⟨byte 13, [.writeConnectionClose], 3⟩,
     ⟨anyCase 67, [.writeConnectionClose, .startField], 25⟩,
     ⟨anyCase 84, [.writeConnectionClose, .startField], 44⟩,
     ⟨token, [.writeConnectionClose, .startField], 21⟩]]

/-- The states up to 100: `Transfer-Encoding`, and the rest of `Connection`. -/
def transferRows : List (List (Arc HttpClientParserAction)) :=
  [nameRow (anyCase 82) 45, nameRow (anyCase 65) 46, nameRow (anyCase 78) 47,
   nameRow (anyCase 83) 48, nameRow (anyCase 70) 49, nameRow (anyCase 69) 50,
   nameRow (anyCase 82) 51, nameRow (byte 45) 52, nameRow (anyCase 69) 53,
   nameRow (anyCase 78) 54, nameRow (anyCase 67) 55, nameRow (anyCase 79) 56,
   nameRow (anyCase 68) 57, nameRow (anyCase 73) 58, nameRow (anyCase 78) 59,
   nameRow (anyCase 71) 60, [⟨byte 58, [.writeField], 61⟩, ⟨token, [], 21⟩],
   [⟨byte 10, [.mark, .writeValue], 62⟩, ⟨byte 13, [.mark, .writeValue], 80⟩,
     ⟨anyCase 67, [.mark], 81⟩, ⟨space, [.mark], 61⟩, ⟨any, [.mark], 23⟩],
   [⟨byte 10, [.done], 121⟩, ⟨byte 13, [], 72⟩, ⟨anyCase 67, [.mark, .startField], 73⟩,
     ⟨anyCase 84, [.startField], 44⟩, ⟨space, [], 63⟩, ⟨token, [.startField], 21⟩],
   [⟨anyCase 67, [.mark], 64⟩, ⟨space, [], 63⟩], [⟨anyCase 72, [], 65⟩], [⟨anyCase 85, [], 66⟩],
   [⟨anyCase 78, [], 67⟩], [⟨anyCase 75, [], 68⟩], [⟨anyCase 69, [], 69⟩],
   [⟨anyCase 68, [], 70⟩],
   [⟨byte 10, [.writeValue, .transChunked], 20⟩, ⟨byte 13, [.writeValue], 71⟩],
   [⟨byte 10, [.transChunked], 20⟩],
   [⟨byte 10, [.done], 121⟩, ⟨anyCase 67, [.mark], 64⟩, ⟨space, [], 63⟩],
   [⟨byte 58, [.writeField], 22⟩, ⟨anyCase 72, [], 74⟩, ⟨anyCase 79, [], 26⟩, ⟨token, [], 21⟩],
   nameRow (anyCase 85) 75, nameRow (anyCase 78) 76, nameRow (anyCase 75) 77,
   nameRow (anyCase 69) 78, nameRow (anyCase 68) 79,
   [⟨byte 10, [.writeValue, .transChunked], 20⟩, ⟨byte 13, [.writeValue], 71⟩,
     ⟨byte 58, [.writeField], 22⟩, ⟨token, [], 21⟩],
   [⟨byte 10, [], 62⟩, ⟨anyCase 67, [.mark], 64⟩, ⟨space, [], 63⟩], valueRow (anyCase 72) 82,
   valueRow (anyCase 85) 83, valueRow (anyCase 78) 84, valueRow (anyCase 75) 85,
   valueRow (anyCase 69) 86, valueRow (anyCase 68) 87,
   [⟨byte 10, [.writeValue, .transChunked], 20⟩, ⟨byte 13, [.writeValue], 71⟩, ⟨any, [], 23⟩],
   [⟨byte 10, [], 43⟩], [⟨byte 10, [.done], 122⟩, ⟨anyCase 67, [], 38⟩, ⟨space, [], 37⟩],
   [⟨byte 58, [.writeField], 22⟩, ⟨anyCase 76, [], 91⟩, ⟨anyCase 79, [], 26⟩, ⟨token, [], 21⟩],
   nameRow (anyCase 79) 92, nameRow (anyCase 83) 93, nameRow (anyCase 69) 94,
   [⟨byte 10, [], 43⟩, ⟨byte 13, [], 88⟩, ⟨byte 58, [.writeField], 22⟩, ⟨token, [], 21⟩],
   [⟨byte 10, [], 36⟩, ⟨anyCase 67, [], 38⟩, ⟨space, [], 37⟩], valueRow (anyCase 76) 97,
   valueRow (anyCase 79) 98, valueRow (anyCase 83) 99, valueRow (anyCase 69) 100,
   [⟨byte 10, [.writeValue], 43⟩, ⟨byte 13, [.writeValue], 88⟩, ⟨any, [], 23⟩]]

/-- The states from 101 on: `Content-Length`, and what follows a final state. -/
def lengthRows : List (List (Arc HttpClientParserAction)) :=
  [nameRow (anyCase 69) 102, nameRow (anyCase 78) 103, nameRow (anyCase 84) 104,
   nameRow (byte 45) 105, nameRow (anyCase 76) 106, nameRow (anyCase 69) 107,
   nameRow (anyCase 78) 108, nameRow (anyCase 71) 109, nameRow (anyCase 84) 110,
   nameRow (anyCase 72) 111, [⟨byte 58, [.writeField], 112⟩, ⟨token, [], 21⟩],
   [⟨byte 10, [.mark, .writeValue], 113⟩, ⟨byte 13, [.mark, .writeValue], 118⟩,
     ⟨space, [.mark], 112⟩, ⟨digit, [.mark], 119⟩, ⟨any, [.mark], 23⟩],
   [⟨byte 10, [.done], 123⟩, ⟨byte 13, [], 116⟩, ⟨anyCase 67, [.startField], 25⟩,
     ⟨anyCase 84, [.startField], 44⟩, ⟨space, [], 114⟩, ⟨digit, [.mark, .startField], 117⟩,
     ⟨token, [.startField], 21⟩],
   [⟨space, [], 114⟩, ⟨digit, [.mark], 115⟩],
   [⟨byte 10, [.writeContentLen, .writeValue], 20⟩,
     ⟨byte 13, [.writeContentLen, .writeValue], 24⟩, ⟨digit, [], 115⟩],
   [⟨byte 10, [.done], 123⟩, ⟨space, [], 114⟩, ⟨digit, [.mark], 115⟩],
   [⟨byte 10, [.writeContentLen, .writeValue], 20⟩,
     ⟨byte 13, [.writeContentLen, .writeValue], 24⟩, ⟨byte 58, [.writeField], 22⟩,
     ⟨digit, [], 117⟩, ⟨token, [], 21⟩],
   [⟨byte 10, [], 113⟩, ⟨space, [], 114⟩, ⟨digit, [.mark], 115⟩],
   [⟨byte 10, [.writeContentLen, .writeValue], 20⟩,
     ⟨byte 13, [.writeContentLen, .writeValue], 24⟩, ⟨digit, [], 119⟩, ⟨any, [], 23⟩],
   [], [⟨anyCase 67, [.mark], 64⟩, ⟨space, [], 63⟩], [⟨anyCase 67, [], 38⟩, ⟨space, [], 37⟩],
   [⟨space, [], 114⟩, ⟨digit, [.mark], 115⟩]]

def rows : List (List (Arc HttpClientParserAction)) :=
  lineRows ++ connectionRows ++ transferRows ++ lengthRows

end ResponseTable

/-- The automaton of `httpclient_parser_execute`. -/
def responseScanner : Scanner UInt8 HttpClientParserAction :=
  .ofRows ResponseTable.rows (· == .done)

end Flz.Http
