import Flz.Lib.Table

/-! # The request automaton

`http11_parser.rl` as `http11_parser.cc` runs it: a row for every state, a byte for every
character. `r` is the field `uri_relaxed`, which `http_parser_init` leaves alone. The error
state is 0, and the states from 348 on are final.
-/
namespace Flz.Http
open Lib Lib.ByteClass

inductive HttpParserAction
  | mark | startField | writeField | writeValue | requestMethod | requestUri | fragment
  | startQuery | queryString | httpVersion | requestPath | xml | json | done
  deriving DecidableEq, Repr

namespace RequestTable

def methodChar : ByteClass := [(48, 57), (65, 90)]
def schemeChar : ByteClass := [(43, 43), (45, 46), (48, 57), (65, 90), (97, 122)]
def xmlChar : ByteClass := [(45, 46), (48, 57), (65, 90), (97, 122)]
def nameChar : ByteClass :=
  [(1, 8), (10, 31), (33, 33), (35, 39), (42, 43), (45, 46), (48, 57), (65, 90), (94, 122),
    (124, 124), (126, 126)]
def blank : ByteClass := [(9, 9), (32, 32)]
def content : ByteClass := [(1, 126), (128, 255)]

def unreserved : ByteClass := [(45, 46), (48, 57), (65, 90), (95, 95), (97, 122), (126, 126)]
def subDelims (r : Bool) : ByteClass :=
  [(33, 33), (36, 36), (38, 44), (59, 59), (61, 61)] ++
    if r then [(94, 94), (123, 123), (125, 125)] else []
def regName (r : Bool) : ByteClass := unreserved ++ subDelims r
def userinfo (r : Bool) : ByteClass := byte 58 ++ regName r
def segmentNzNc (r : Bool) : ByteClass := byte 64 ++ regName r
def pchar (r : Bool) : ByteClass := [(58, 58), (64, 64), (128, 255)] ++ regName r
def pathChar (r : Bool) : ByteClass := byte 47 ++ pchar r
def queryChar (r : Bool) : ByteClass := byte 63 ++ pathChar r

/-- The arcs that end a path. -/
def pathEnd : List (Arc HttpParserAction) :=
  [⟨byte 32, [.requestPath, .requestUri], 4⟩, ⟨byte 35, [.requestPath, .requestUri], 20⟩,
   ⟨byte 63, [.requestPath], 29⟩]

/-- The states up to 18: the method, the version and the header fields. -/
def lineRows (r : Bool) : List (List (Arc HttpParserAction)) :=
  [[], [⟨byte 60, [.mark], 194⟩, ⟨byte 64, [.mark], 198⟩, ⟨methodChar, [.mark], 2⟩],
   [⟨byte 32, [.requestMethod], 3⟩, ⟨methodChar, [], 175⟩],
   [⟨byte 32, [.mark, .requestPath, .requestUri], 4⟩,
     ⟨byte 35, [.mark, .requestPath, .requestUri], 20⟩, ⟨byte 37, [.mark], 24⟩,
     ⟨byte 47, [.mark], 33⟩, ⟨byte 63, [.mark, .requestPath], 29⟩, ⟨alpha, [.mark], 173⟩,
     ⟨segmentNzNc r, [.mark], 19⟩],
   [⟨byte 72, [.mark], 5⟩], [⟨byte 84, [], 6⟩], [⟨byte 84, [], 7⟩], [⟨byte 80, [], 8⟩],
   [⟨byte 47, [], 9⟩], [⟨byte 49, [], 10⟩], [⟨byte 46, [], 11⟩], [⟨[(48, 49)], [], 12⟩],
   [⟨byte 10, [.httpVersion], 13⟩, ⟨byte 13, [.httpVersion], 17⟩],
   [⟨byte 10, [.startField, .done], 348⟩, ⟨byte 13, [.startField], 18⟩,
     ⟨nameChar, [.startField], 14⟩],
   [⟨byte 58, [.writeField], 15⟩, ⟨nameChar, [], 14⟩],
   [⟨byte 10, [.mark, .writeValue], 13⟩, ⟨byte 13, [.mark, .writeValue], 17⟩,
     ⟨blank, [.mark], 15⟩, ⟨content, [.mark], 16⟩],
   [⟨byte 10, [.writeValue], 13⟩, ⟨byte 13, [.writeValue], 17⟩, ⟨content, [], 16⟩],
   [⟨byte 10, [], 13⟩],
   [⟨byte 10, [.done], 348⟩, ⟨byte 58, [.writeField], 15⟩, ⟨nameChar, [], 14⟩]]

/-- The states up to 46: the parts of a URI without a scheme. -/
def uriRows (r : Bool) : List (List (Arc HttpParserAction)) :=
  [pathEnd ++ [⟨byte 37, [], 24⟩, ⟨byte 47, [], 26⟩, ⟨segmentNzNc r, [], 19⟩],
   [⟨byte 32, [.mark, .fragment], 4⟩, ⟨byte 37, [.mark], 22⟩, ⟨queryChar r, [.mark], 21⟩],
   [⟨byte 32, [.fragment], 4⟩, ⟨byte 37, [], 22⟩, ⟨queryChar r, [], 21⟩], [⟨xdigit, [], 23⟩],
   [⟨xdigit, [], 21⟩], [⟨xdigit, [], 25⟩], [⟨xdigit, [], 19⟩],
   pathEnd ++ [⟨byte 37, [], 27⟩, ⟨pathChar r, [], 26⟩], [⟨xdigit, [], 28⟩], [⟨xdigit, [], 26⟩],
   [⟨byte 32, [.startQuery, .queryString, .requestUri], 4⟩,
     ⟨byte 35, [.startQuery, .queryString, .requestUri], 20⟩, ⟨byte 37, [.startQuery], 31⟩,
     ⟨queryChar r, [.startQuery], 30⟩],
   [⟨byte 32, [.queryString, .requestUri], 4⟩, ⟨byte 35, [.queryString, .requestUri], 20⟩,
     ⟨byte 37, [], 31⟩, ⟨queryChar r, [], 30⟩],
   [⟨xdigit, [], 32⟩], [⟨xdigit, [], 30⟩],
   pathEnd ++ [⟨byte 37, [], 27⟩, ⟨byte 47, [], 34⟩, ⟨pchar r, [], 26⟩],
   pathEnd ++ [⟨byte 37, [], 36⟩, ⟨byte 47, [], 26⟩, ⟨byte 58, [], 38⟩, ⟨byte 64, [], 42⟩,
     ⟨byte 91, [], 47⟩, ⟨regName r, [], 35⟩],
   pathEnd ++ [⟨byte 37, [], 36⟩, ⟨byte 47, [], 26⟩, ⟨byte 58, [], 38⟩, ⟨byte 64, [], 42⟩,
     ⟨regName r, [], 35⟩],
   [⟨xdigit, [], 37⟩], [⟨xdigit, [], 35⟩],
   pathEnd ++ [⟨byte 37, [], 40⟩, ⟨byte 47, [], 26⟩, ⟨byte 64, [], 42⟩, ⟨digit, [], 38⟩,
     ⟨userinfo r, [], 39⟩],
   [⟨byte 37, [], 40⟩, ⟨byte 64, [], 42⟩, ⟨userinfo r, [], 39⟩], [⟨xdigit, [], 41⟩],
   [⟨xdigit, [], 39⟩],
   pathEnd ++ [⟨byte 37, [], 44⟩, ⟨byte 47, [], 26⟩, ⟨byte 58, [], 46⟩, ⟨byte 91, [], 47⟩,
     ⟨regName r, [], 43⟩],
   pathEnd ++ [⟨byte 37, [], 44⟩, ⟨byte 47, [], 26⟩, ⟨byte 58, [], 46⟩, ⟨regName r, [], 43⟩],
   [⟨xdigit, [], 45⟩], [⟨xdigit, [], 43⟩], pathEnd ++ [⟨byte 47, [], 26⟩, ⟨digit, [], 46⟩]]

/-- The states up to 60: an address in brackets. -/
def openAddressRows : List (List (Arc HttpParserAction)) :=
  [[⟨byte 6, [], 48⟩, ⟨byte 58, [], 167⟩, ⟨byte 118, [], 169⟩, ⟨xdigit, [], 91⟩],
   [⟨xdigit, [], 49⟩], [⟨byte 58, [], 53⟩, ⟨xdigit, [], 50⟩],
   [⟨byte 58, [], 53⟩, ⟨xdigit, [], 51⟩], [⟨byte 58, [], 53⟩, ⟨xdigit, [], 52⟩],
   [⟨byte 58, [], 53⟩],
   [⟨byte 49, [], 84⟩, ⟨byte 50, [], 87⟩, ⟨digit, [], 54⟩, ⟨xdigit, [], 90⟩],
   [⟨byte 46, [], 55⟩, ⟨byte 58, [], 80⟩, ⟨xdigit, [], 77⟩],
   [⟨byte 49, [], 72⟩, ⟨byte 50, [], 74⟩, ⟨digit, [], 56⟩], [⟨byte 46, [], 57⟩],
   [⟨byte 49, [], 67⟩, ⟨byte 50, [], 69⟩, ⟨digit, [], 58⟩], [⟨byte 46, [], 59⟩],
   [⟨byte 49, [], 62⟩, ⟨byte 50, [], 64⟩, ⟨digit, [], 60⟩], [⟨byte 93, [], 61⟩]]

/-- The states from 62 to 172. -/
def addressRows (r : Bool) : List (List (Arc HttpParserAction)) :=
  [[⟨byte 93, [], 61⟩, ⟨digit, [], 63⟩], [⟨byte 93, [], 61⟩, ⟨digit, [], 60⟩],
   [⟨byte 48, [], 65⟩, ⟨byte 53, [], 66⟩, ⟨byte 93, [], 61⟩], [⟨digit, [], 60⟩],
   [⟨byte 48, [], 60⟩], [⟨byte 46, [], 59⟩, ⟨digit, [], 68⟩],
   [⟨byte 46, [], 59⟩, ⟨digit, [], 58⟩],
   [⟨byte 46, [], 59⟩, ⟨byte 48, [], 70⟩, ⟨byte 53, [], 71⟩], [⟨digit, [], 58⟩],
   [⟨byte 48, [], 58⟩], [⟨byte 46, [], 57⟩, ⟨digit, [], 73⟩],
   [⟨byte 46, [], 57⟩, ⟨digit, [], 56⟩],
   [⟨byte 46, [], 57⟩, ⟨byte 48, [], 75⟩, ⟨byte 53, [], 76⟩], [⟨digit, [], 56⟩],
   [⟨byte 48, [], 56⟩], [⟨byte 58, [], 80⟩, ⟨xdigit, [], 78⟩],
   [⟨byte 58, [], 80⟩, ⟨xdigit, [], 79⟩], [⟨byte 58, [], 80⟩], [⟨xdigit, [], 81⟩],
   [⟨byte 93, [], 61⟩, ⟨xdigit, [], 82⟩], [⟨byte 93, [], 61⟩, ⟨xdigit, [], 83⟩],
   [⟨byte 93, [], 61⟩, ⟨xdigit, [], 60⟩],
   [⟨byte 46, [], 55⟩, ⟨byte 58, [], 80⟩, ⟨digit, [], 85⟩, ⟨xdigit, [], 77⟩],
   [⟨byte 46, [], 55⟩, ⟨byte 58, [], 80⟩, ⟨digit, [], 86⟩, ⟨xdigit, [], 78⟩],
   [⟨byte 46, [], 55⟩, ⟨byte 58, [], 80⟩, ⟨xdigit, [], 79⟩],
   [⟨byte 46, [], 55⟩, ⟨byte 48, [], 88⟩, ⟨byte 53, [], 89⟩, ⟨byte 58, [], 80⟩, ⟨xdigit, [], 77⟩],
   [⟨byte 58, [], 80⟩, ⟨digit, [], 86⟩, ⟨xdigit, [], 78⟩],
   [⟨byte 48, [], 86⟩, ⟨byte 58, [], 80⟩, ⟨xdigit, [], 78⟩],
   [⟨byte 58, [], 80⟩, ⟨xdigit, [], 77⟩], [⟨byte 58, [], 95⟩, ⟨xdigit, [], 92⟩],
   [⟨byte 58, [], 95⟩, ⟨xdigit, [], 93⟩], [⟨byte 58, [], 95⟩, ⟨xdigit, [], 94⟩],
   [⟨byte 58, [], 95⟩], [⟨byte 58, [], 166⟩, ⟨xdigit, [], 96⟩],
   [⟨byte 58, [], 100⟩, ⟨xdigit, [], 97⟩], [⟨byte 58, [], 100⟩, ⟨xdigit, [], 98⟩],
   [⟨byte 58, [], 100⟩, ⟨xdigit, [], 99⟩], [⟨byte 58, [], 100⟩],
   [⟨byte 58, [], 165⟩, ⟨xdigit, [], 101⟩], [⟨byte 58, [], 105⟩, ⟨xdigit, [], 102⟩],
   [⟨byte 58, [], 105⟩, ⟨xdigit, [], 103⟩], [⟨byte 58, [], 105⟩, ⟨xdigit, [], 104⟩],
   [⟨byte 58, [], 105⟩], [⟨byte 58, [], 164⟩, ⟨xdigit, [], 106⟩],
   [⟨byte 58, [], 110⟩, ⟨xdigit, [], 107⟩], [⟨byte 58, [], 110⟩, ⟨xdigit, [], 108⟩],
   [⟨byte 58, [], 110⟩, ⟨xdigit, [], 109⟩], [⟨byte 58, [], 110⟩],
   [⟨byte 58, [], 163⟩, ⟨xdigit, [], 111⟩], [⟨byte 58, [], 115⟩, ⟨xdigit, [], 112⟩],
   [⟨byte 58, [], 115⟩, ⟨xdigit, [], 113⟩], [⟨byte 58, [], 115⟩, ⟨xdigit, [], 114⟩],
   [⟨byte 58, [], 115⟩], [⟨byte 58, [], 151⟩, ⟨xdigit, [], 116⟩],
   [⟨byte 58, [], 120⟩, ⟨xdigit, [], 117⟩], [⟨byte 58, [], 120⟩, ⟨xdigit, [], 118⟩],
   [⟨byte 58, [], 120⟩, ⟨xdigit, [], 119⟩], [⟨byte 58, [], 120⟩],
   [⟨byte 58, [], 150⟩, ⟨xdigit, [], 121⟩], [⟨byte 58, [], 125⟩, ⟨xdigit, [], 122⟩],
   [⟨byte 58, [], 125⟩, ⟨xdigit, [], 123⟩], [⟨byte 58, [], 125⟩, ⟨xdigit, [], 124⟩],
   [⟨byte 58, [], 125⟩], [⟨byte 58, [], 126⟩, ⟨xdigit, [], 121⟩],
   [⟨byte 49, [], 143⟩, ⟨byte 50, [], 146⟩, ⟨byte 93, [], 61⟩, ⟨digit, [], 127⟩,
     ⟨xdigit, [], 149⟩, ⟨[(2, 3)], [], 48⟩],
   [⟨byte 46, [], 55⟩, ⟨byte 58, [], 131⟩, ⟨byte 93, [], 61⟩, ⟨xdigit, [], 128⟩],
   [⟨byte 58, [], 131⟩, ⟨byte 93, [], 61⟩, ⟨xdigit, [], 129⟩],
   [⟨byte 58, [], 131⟩, ⟨byte 93, [], 61⟩, ⟨xdigit, [], 130⟩],
   [⟨byte 58, [], 131⟩, ⟨byte 93, [], 61⟩],
   [⟨byte 49, [], 136⟩, ⟨byte 50, [], 139⟩, ⟨digit, [], 132⟩, ⟨xdigit, [], 142⟩],
   [⟨byte 46, [], 55⟩, ⟨byte 58, [], 80⟩, ⟨byte 93, [], 61⟩, ⟨xdigit, [], 133⟩],
   [⟨byte 58, [], 80⟩, ⟨byte 93, [], 61⟩, ⟨xdigit, [], 134⟩],
   [⟨byte 58, [], 80⟩, ⟨byte 93, [], 61⟩, ⟨xdigit, [], 135⟩],
   [⟨byte 58, [], 80⟩, ⟨byte 93, [], 61⟩],
   [⟨byte 46, [], 55⟩, ⟨byte 58, [], 80⟩, ⟨byte 93, [], 61⟩, ⟨digit, [], 137⟩, ⟨xdigit, [], 133⟩],
   [⟨byte 46, [], 55⟩, ⟨byte 58, [], 80⟩, ⟨byte 93, [], 61⟩, ⟨digit, [], 138⟩, ⟨xdigit, [], 134⟩],
   [⟨byte 46, [], 55⟩, ⟨byte 58, [], 80⟩, ⟨byte 93, [], 61⟩, ⟨xdigit, [], 135⟩],
   [⟨byte 46, [], 55⟩, ⟨byte 48, [], 140⟩, ⟨byte 53, [], 141⟩, ⟨byte 58, [], 80⟩,
     ⟨byte 93, [], 61⟩, ⟨xdigit, [], 133⟩],
   [⟨byte 58, [], 80⟩, ⟨byte 93, [], 61⟩, ⟨digit, [], 138⟩, ⟨xdigit, [], 134⟩],
   [⟨byte 48, [], 138⟩, ⟨byte 58, [], 80⟩, ⟨byte 93, [], 61⟩, ⟨xdigit, [], 134⟩],
   [⟨byte 58, [], 80⟩, ⟨byte 93, [], 61⟩, ⟨xdigit, [], 133⟩],
   [⟨byte 46, [], 55⟩, ⟨byte 58, [], 131⟩, ⟨byte 93, [], 61⟩, ⟨digit, [], 144⟩, ⟨xdigit, [], 128⟩],
   [⟨byte 46, [], 55⟩, ⟨byte 58, [], 131⟩, ⟨byte 93, [], 61⟩, ⟨digit, [], 145⟩, ⟨xdigit, [], 129⟩],
   [⟨byte 46, [], 55⟩, ⟨byte 58, [], 131⟩, ⟨byte 93, [], 61⟩, ⟨xdigit, [], 130⟩],
   [⟨byte 46, [], 55⟩, ⟨byte 48, [], 147⟩, ⟨byte 53, [], 148⟩, ⟨byte 58, [], 131⟩,
     ⟨byte 93, [], 61⟩, ⟨xdigit, [], 128⟩],
   [⟨byte 58, [], 131⟩, ⟨byte 93, [], 61⟩, ⟨digit, [], 145⟩, ⟨xdigit, [], 129⟩],
   [⟨byte 48, [], 145⟩, ⟨byte 58, [], 131⟩, ⟨byte 93, [], 61⟩, ⟨xdigit, [], 129⟩],
   [⟨byte 58, [], 131⟩, ⟨byte 93, [], 61⟩, ⟨xdigit, [], 128⟩],
   [⟨byte 49, [], 143⟩, ⟨byte 50, [], 146⟩, ⟨digit, [], 127⟩, ⟨xdigit, [], 149⟩,
     ⟨[(2, 3)], [], 48⟩],
   [⟨byte 49, [], 156⟩, ⟨byte 50, [], 159⟩, ⟨digit, [], 152⟩, ⟨xdigit, [], 162⟩,
     ⟨[(2, 3)], [], 48⟩],
   [⟨byte 46, [], 55⟩, ⟨byte 58, [], 131⟩, ⟨xdigit, [], 153⟩],
   [⟨byte 58, [], 131⟩, ⟨xdigit, [], 154⟩], [⟨byte 58, [], 131⟩, ⟨xdigit, [], 155⟩],
   [⟨byte 58, [], 131⟩],
   [⟨byte 46, [], 55⟩, ⟨byte 58, [], 131⟩, ⟨digit, [], 157⟩, ⟨xdigit, [], 153⟩],
   [⟨byte 46, [], 55⟩, ⟨byte 58, [], 131⟩, ⟨digit, [], 158⟩, ⟨xdigit, [], 154⟩],
   [⟨byte 46, [], 55⟩, ⟨byte 58, [], 131⟩, ⟨xdigit, [], 155⟩],
   [⟨byte 46, [], 55⟩, ⟨byte 48, [], 160⟩, ⟨byte 53, [], 161⟩, ⟨byte 58, [], 131⟩,
     ⟨xdigit, [], 153⟩],
   [⟨byte 58, [], 131⟩, ⟨digit, [], 158⟩, ⟨xdigit, [], 154⟩],
   [⟨byte 48, [], 158⟩, ⟨byte 58, [], 131⟩, ⟨xdigit, [], 154⟩],
   [⟨byte 58, [], 131⟩, ⟨xdigit, [], 153⟩], [⟨xdigit, [], 49⟩, ⟨[(2, 3)], [], 48⟩],
   [⟨[(2, 3)], [], 48⟩], [⟨byte 3, [], 48⟩], [⟨byte 4, [], 48⟩], [⟨byte 58, [], 168⟩],
   [⟨byte 49, [], 143⟩, ⟨byte 50, [], 146⟩, ⟨byte 93, [], 61⟩, ⟨digit, [], 127⟩,
     ⟨xdigit, [], 149⟩, ⟨[(2, 5)], [], 48⟩],
   [⟨xdigit, [], 170⟩], [⟨byte 46, [], 171⟩, ⟨xdigit, [], 170⟩], [⟨userinfo r, [], 172⟩],
   [⟨byte 93, [], 61⟩, ⟨userinfo r, [], 172⟩]]

/-- The states up to 193: a scheme, and the rest of the method. -/
def methodRows (r : Bool) : List (List (Arc HttpParserAction)) :=
  [pathEnd ++ [⟨byte 37, [], 24⟩, ⟨byte 47, [], 26⟩, ⟨byte 58, [], 174⟩, ⟨schemeChar, [], 173⟩,
     ⟨segmentNzNc r, [], 19⟩],
   [⟨byte 32, [.mark, .requestPath, .requestUri], 4⟩,
     ⟨byte 35, [.mark, .requestPath, .requestUri], 20⟩, ⟨byte 37, [.mark], 27⟩,
     ⟨byte 47, [.mark], 33⟩, ⟨byte 63, [.mark, .requestPath], 29⟩, ⟨pchar r, [.mark], 26⟩],
   [⟨byte 32, [.requestMethod], 3⟩, ⟨methodChar, [], 176⟩],
   [⟨byte 32, [.requestMethod], 3⟩, ⟨methodChar, [], 177⟩],
   [⟨byte 32, [.requestMethod], 3⟩, ⟨methodChar, [], 178⟩],
   [⟨byte 32, [.requestMethod], 3⟩, ⟨methodChar, [], 179⟩],
   [⟨byte 32, [.requestMethod], 3⟩, ⟨methodChar, [], 180⟩],
   [⟨byte 32, [.requestMethod], 3⟩, ⟨methodChar, [], 181⟩],
   [⟨byte 32, [.requestMethod], 3⟩, ⟨methodChar, [], 182⟩],
   [⟨byte 32, [.requestMethod], 3⟩, ⟨methodChar, [], 183⟩],
   [⟨byte 32, [.requestMethod], 3⟩, ⟨methodChar, [], 184⟩],
   [⟨byte 32, [.requestMethod], 3⟩, ⟨methodChar, [], 185⟩],
   [⟨byte 32, [.requestMethod], 3⟩, ⟨methodChar, [], 186⟩],
   [⟨byte 32, [.requestMethod], 3⟩, ⟨methodChar, [], 187⟩],
   [⟨byte 32, [.requestMethod], 3⟩, ⟨methodChar, [], 188⟩],
   [⟨byte 32, [.requestMethod], 3⟩, ⟨methodChar, [], 189⟩],
   [⟨byte 32, [.requestMethod], 3⟩, ⟨methodChar, [], 190⟩],
   [⟨byte 32, [.requestMethod], 3⟩, ⟨methodChar, [], 191⟩],
   [⟨byte 32, [.requestMethod], 3⟩, ⟨methodChar, [], 192⟩],
   [⟨byte 32, [.requestMethod], 3⟩, ⟨methodChar, [], 193⟩], [⟨byte 32, [.requestMethod], 3⟩]]

/-- The states up to 221: messages that are no requests, and their URIs. -/
def socketRows (r : Bool) : List (List (Arc HttpParserAction)) :=
  [[⟨xmlChar, [], 195⟩],
   [⟨[(9, 13), (32, 32), (47, 47), (62, 62)], [.requestPath], 196⟩, ⟨xmlChar, [], 195⟩],
   [⟨byte 62, [], 197⟩, ⟨any, [], 196⟩],
   [⟨byte 0, [.xml, .done], 349⟩, ⟨byte 62, [], 197⟩, ⟨any, [], 196⟩],
   [⟨byte 32, [.requestPath], 199⟩, ⟨byte 37, [], 203⟩, ⟨byte 47, [], 208⟩,
     ⟨segmentNzNc r, [], 202⟩],
   [⟨byte 123, [.mark], 200⟩], [⟨byte 125, [], 201⟩, ⟨any, [], 200⟩],
   [⟨byte 0, [.json, .done], 349⟩, ⟨byte 125, [], 201⟩, ⟨any, [], 200⟩],
   [⟨byte 32, [.requestPath], 199⟩, ⟨byte 37, [], 203⟩, ⟨byte 47, [], 205⟩,
     ⟨segmentNzNc r, [], 202⟩],
   [⟨xdigit, [], 204⟩], [⟨xdigit, [], 202⟩],
   [⟨byte 32, [.requestPath], 199⟩, ⟨byte 37, [], 206⟩, ⟨pathChar r, [], 205⟩],
   [⟨xdigit, [], 207⟩], [⟨xdigit, [], 205⟩],
   [⟨byte 32, [.requestPath], 199⟩, ⟨byte 37, [], 206⟩, ⟨byte 47, [], 209⟩, ⟨pchar r, [], 205⟩],
   [⟨byte 32, [.requestPath], 199⟩, ⟨byte 37, [], 211⟩, ⟨byte 47, [], 205⟩, ⟨byte 58, [], 213⟩,
     ⟨byte 64, [], 217⟩, ⟨byte 91, [], 222⟩, ⟨regName r, [], 210⟩],
   [⟨byte 32, [.requestPath], 199⟩, ⟨byte 37, [], 211⟩, ⟨byte 47, [], 205⟩, ⟨byte 58, [], 213⟩,
     ⟨byte 64, [], 217⟩, ⟨regName r, [], 210⟩],
   [⟨xdigit, [], 212⟩], [⟨xdigit, [], 210⟩],
   [⟨byte 32, [.requestPath], 199⟩, ⟨byte 37, [], 215⟩, ⟨byte 47, [], 205⟩, ⟨byte 64, [], 217⟩,
     ⟨digit, [], 213⟩, ⟨userinfo r, [], 214⟩],
   [⟨byte 37, [], 215⟩, ⟨byte 64, [], 217⟩, ⟨userinfo r, [], 214⟩], [⟨xdigit, [], 216⟩],
   [⟨xdigit, [], 214⟩],
   [⟨byte 32, [.requestPath], 199⟩, ⟨byte 37, [], 219⟩, ⟨byte 47, [], 205⟩, ⟨byte 58, [], 221⟩,
     ⟨byte 91, [], 222⟩, ⟨regName r, [], 218⟩],
   [⟨byte 32, [.requestPath], 199⟩, ⟨byte 37, [], 219⟩, ⟨byte 47, [], 205⟩, ⟨byte 58, [], 221⟩,
     ⟨regName r, [], 218⟩],
   [⟨xdigit, [], 220⟩], [⟨xdigit, [], 218⟩],
   [⟨byte 32, [.requestPath], 199⟩, ⟨byte 47, [], 205⟩, ⟨digit, [], 221⟩]]

/-- Rows with their targets in another place. -/
def moved (k : ℕ) (rows : List (List (Arc HttpParserAction))) :
    List (List (Arc HttpParserAction)) :=
  rows.map (fun row => row.map (fun a => { a with target := a.target + k }))

def rows (r : Bool) : List (List (Arc HttpParserAction)) :=
  lineRows r ++ uriRows r ++ openAddressRows ++
    [pathEnd ++ [⟨byte 47, [], 26⟩, ⟨byte 58, [], 46⟩]] ++ addressRows r ++ methodRows r ++
    socketRows r ++ moved 175 openAddressRows ++
    [[⟨byte 32, [.requestPath], 199⟩, ⟨byte 47, [], 205⟩, ⟨byte 58, [], 221⟩]] ++
    moved 175 (addressRows r) ++   [[⟨byte 58, [.writeField], 15⟩, ⟨nameChar, [], 14⟩], []]

end RequestTable

/-- The automaton of `http_parser_execute`. -/
def requestScanner (uriRelaxed : Bool) : Scanner UInt8 HttpParserAction :=
  .ofRows (RequestTable.rows uriRelaxed) (· == .done)

end Flz.Http
