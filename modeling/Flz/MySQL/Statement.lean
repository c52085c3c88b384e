import Flz.ByteArray.Integers
import Flz.Lib.CString
import Flz.Lib.Runs

/-! # The parameters of a prepared statement

`MySQLStmt` of `db/mysql.cc`. A parameter keeps the buffer of the first value that is bound to it, until a
longer text needs another one.
-/
namespace Flz
open Lib

/-- The field types that are bound here, behind the one that `memset` leaves. -/
inductive enum_field_types
  | MYSQL_TYPE_DECIMAL | MYSQL_TYPE_TINY | MYSQL_TYPE_SHORT | MYSQL_TYPE_LONG | MYSQL_TYPE_FLOAT
  | MYSQL_TYPE_DOUBLE | MYSQL_TYPE_NULL | MYSQL_TYPE_LONGLONG | MYSQL_TYPE_BLOB | MYSQL_TYPE_STRING
  deriving DecidableEq, Repr

open enum_field_types

/-- `buffer` is the memory that was allocated, `none` standing for the null pointer. -/
structure MYSQL_BIND where
  buffer : Option (List UInt8)
  buffer_length : ℕ
  buffer_type : enum_field_types
  is_unsigned : Bool
  deriving DecidableEq, Repr

/-- What the functions rely on: the byte order, what the heap holds, and `Time2Str`. -/
structure Platform where
  host : Endian
  heap : ℕ → UInt8
  Time2Str : Int64 → List UInt8

def malloc (p : Platform) (size : ℕ) : List UInt8 := (List.range size).map p.heap

def memcpy (dest src : List UInt8) : Except Trap (List UInt8) :=
  if src.length ≤ dest.length then .ok (overwrite dest 0 src) else .error .outOfBlock

namespace MYSQL_BIND

def BIND_COPY (p : Platform) (bytes : List UInt8) (b : MYSQL_BIND) : Except Trap MYSQL_BIND := do
  let buffer ← memcpy (b.buffer.getD (malloc p bytes.length)) bytes
  return { b with buffer := some buffer }

def BIND_COPY_LEN (p : Platform) (bytes : List UInt8) (b : MYSQL_BIND) : Except Trap MYSQL_BIND := do
  let buffer ← memcpy (match b.buffer with
    | none => malloc p bytes.length
    | some buffer => if b.buffer_length < bytes.length then malloc p bytes.length else buffer) bytes
  return { b with buffer := some buffer, buffer_length := bytes.length }

/-- `bindInt8` to `bindDouble`; those for `float` and `double` leave `is_unsigned`. -/
def bindNumber (p : Platform) (type : enum_field_types) (is_unsigned : Option Bool) (bytes : List UInt8)
    (b : MYSQL_BIND) : Except Trap MYSQL_BIND := do
  let b ← BIND_COPY p bytes { b with buffer_type := type }
  return { b with is_unsigned := is_unsigned.getD b.is_unsigned, buffer_length := bytes.length }

/-- `bindString` and `bindBlob`. -/
def bindText (p : Platform) (type : enum_field_types) (bytes : List UInt8) (b : MYSQL_BIND) :
    Except Trap MYSQL_BIND :=
  BIND_COPY_LEN p bytes { b with buffer_type := type }

end MYSQL_BIND

structure MySQLStmt where
  m_binds : List MYSQL_BIND
  deriving DecidableEq, Repr

namespace MySQLStmt
open MYSQL_BIND

/-- `Create`, for a statement with `count` parameters. -/
def Create (count : ℕ) : MySQLStmt where
  m_binds := List.replicate count ⟨none, 0, MYSQL_TYPE_DECIMAL, false⟩

/-- `m_binds[idx]` behind `idx -= 1`. -/
def onBind (s : MySQLStmt) (idx : ℤ) (f : MYSQL_BIND → Except Trap MYSQL_BIND) : Except Trap MySQLStmt :=
  if idx - 1 < 0 then .error .outOfBlock
  else
    match s.m_binds[(idx - 1).toNat]? with
    | none => .error .outOfBlock
    | some b => do
      let b ← f b
      return { s with m_binds := s.m_binds.set (idx - 1).toNat b }

section
variable (p : Platform) (s : MySQLStmt) (idx : ℤ)

/-- `bind(idx)`. -/
def bindNull : Except Trap MySQLStmt := s.onBind idx fun b => .ok { b with buffer_type := MYSQL_TYPE_NULL }

def bindInt8 (value : Int8) : Except Trap MySQLStmt :=
  s.onBind idx (bindNumber p MYSQL_TYPE_TINY (some false) (memory p.host value.toBitVec))

def bindUint8 (value : UInt8) : Except Trap MySQLStmt :=
  s.onBind idx (bindNumber p MYSQL_TYPE_TINY (some true) (memory p.host value.toBitVec))

def bindInt16 (value : Int16) : Except Trap MySQLStmt :=
  s.onBind idx (bindNumber p MYSQL_TYPE_SHORT (some false) (memory p.host value.toBitVec))

def bindUint16 (value : UInt16) : Except Trap MySQLStmt :=
  s.onBind idx (bindNumber p MYSQL_TYPE_SHORT (some true) (memory p.host value.toBitVec))

def bindInt32 (value : Int32) : Except Trap MySQLStmt :=
  s.onBind idx (bindNumber p MYSQL_TYPE_LONG (some false) (memory p.host value.toBitVec))

def bindUint32 (value : UInt32) : Except Trap MySQLStmt :=
  s.onBind idx (bindNumber p MYSQL_TYPE_LONG (some true) (memory p.host value.toBitVec))

def bindInt64 (value : Int64) : Except Trap MySQLStmt :=
  s.onBind idx (bindNumber p MYSQL_TYPE_LONGLONG (some false) (memory p.host value.toBitVec))

def bindUint64 (value : UInt64) : Except Trap MySQLStmt :=
  s.onBind idx (bindNumber p MYSQL_TYPE_LONGLONG (some true) (memory p.host value.toBitVec))

/-- The value by its bits. -/
def bindFloat (value : BitVec 32) : Except Trap MySQLStmt :=
  s.onBind idx (bindNumber p MYSQL_TYPE_FLOAT none (memory p.host value))

def bindDouble (value : BitVec 64) : Except Trap MySQLStmt :=
  s.onBind idx (bindNumber p MYSQL_TYPE_DOUBLE none (memory p.host value))

/-- The overload for a `const char*`, whose text ends at its first `NUL`. -/
def bindCString (value : List UInt8) : Except Trap MySQLStmt :=
  s.onBind idx (bindText p MYSQL_TYPE_STRING (c_str value))

def bindString (value : List UInt8) : Except Trap MySQLStmt :=
  s.onBind idx (bindText p MYSQL_TYPE_STRING value)

/-- Both overloads. -/
def bindBlob (value : List UInt8) : Except Trap MySQLStmt :=
  s.onBind idx (bindText p MYSQL_TYPE_BLOB value)

def bindTime (value : Int64) : Except Trap MySQLStmt := s.bindString p idx (p.Time2Str value)

end

/-! ## Any sequence of calls -/

/-- The value of a call, which tells the function that binds it. -/
inductive Value
  | null
  | int8 (value : Int8) | uint8 (value : UInt8) | int16 (value : Int16) | uint16 (value : UInt16)
  | int32 (value : Int32) | uint32 (value : UInt32) | int64 (value : Int64) | uint64 (value : UInt64)
  | float (value : BitVec 32) | double (value : BitVec 64)
  | cstring (value : List UInt8) | string (value : List UInt8) | blob (value : List UInt8)
  | time (value : Int64)
  deriving DecidableEq

/-- `bind`, with the index of the parameter. -/
def bind (p : Platform) (s : MySQLStmt) (idx : ℤ) : Value → Except Trap MySQLStmt
  | .null => s.bindNull idx
  | .int8 value => s.bindInt8 p idx value
  | .uint8 value => s.bindUint8 p idx value
  | .int16 value => s.bindInt16 p idx value
  | .uint16 value => s.bindUint16 p idx value
  | .int32 value => s.bindInt32 p idx value
  | .uint32 value => s.bindUint32 p idx value
  | .int64 value => s.bindInt64 p idx value
  | .uint64 value => s.bindUint64 p idx value
  | .float value => s.bindFloat p idx value
  | .double value => s.bindDouble p idx value
  | .cstring value => s.bindCString p idx value
  | .string value => s.bindString p idx value
  | .blob value => s.bindBlob p idx value
  | .time value => s.bindTime p idx value

def bindAll (p : Platform) (s : MySQLStmt) (calls : List (ℤ × Value)) : Except Trap MySQLStmt :=
  calls.foldlM (fun s c => s.bind p c.1 c.2) s

/-- What a value is for the server. -/
inductive Datum
  | null
  | number (type : enum_field_types) (is_unsigned : Option Bool) (bytes : List UInt8)
  | text (type : enum_field_types) (bytes : List UInt8)
  deriving DecidableEq, Repr

def Value.datum (p : Platform) : Value → Datum
  | .null => .null
  | .int8 value => .number MYSQL_TYPE_TINY (some false) (memory p.host value.toBitVec)
  | .uint8 value => .number MYSQL_TYPE_TINY (some true) (memory p.host value.toBitVec)
  | .int16 value => .number MYSQL_TYPE_SHORT (some false) (memory p.host value.toBitVec)
  | .uint16 value => .number MYSQL_TYPE_SHORT (some true) (memory p.host value.toBitVec)
  | .int32 value => .number MYSQL_TYPE_LONG (some false) (memory p.host value.toBitVec)
  | .uint32 value => .number MYSQL_TYPE_LONG (some true) (memory p.host value.toBitVec)
  | .int64 value => .number MYSQL_TYPE_LONGLONG (some false) (memory p.host value.toBitVec)
  | .uint64 value => .number MYSQL_TYPE_LONGLONG (some true) (memory p.host value.toBitVec)
  | .float value => .number MYSQL_TYPE_FLOAT none (memory p.host value)
  | .double value => .number MYSQL_TYPE_DOUBLE none (memory p.host value)
  | .cstring value => .text MYSQL_TYPE_STRING (c_str value)
  | .string value => .text MYSQL_TYPE_STRING value
  | .blob value => .text MYSQL_TYPE_BLOB value
  | .time value => .text MYSQL_TYPE_STRING (p.Time2Str value)

namespace Datum

/-- A parameter sends a value: its type, with its sign, and the bytes up to `buffer_length`. -/
def SentBy (b : MYSQL_BIND) : Datum → Prop
  | null => b.buffer_type = MYSQL_TYPE_NULL
  | number type is_unsigned bytes => b.buffer_type = type ∧ (∀ u ∈ is_unsigned, b.is_unsigned = u) ∧
      ∃ buffer ∈ b.buffer, b.buffer_length ≤ buffer.length ∧ buffer.take b.buffer_length = bytes
  | text type bytes => b.buffer_type = type ∧
      ∃ buffer ∈ b.buffer, b.buffer_length ≤ buffer.length ∧ buffer.take b.buffer_length = bytes

/-- The size of a parameter's buffer and of the value in it, behind a value: the buffer is that of the first
value, or of the last text that was longer than the value before it. -/
def room : Option (ℕ × ℕ) → Datum → Option (ℕ × ℕ)
  | r, null => r
  | none, number _ _ bytes => some (bytes.length, bytes.length)
  | none, text _ bytes => some (bytes.length, bytes.length)
  | some (size, _), number _ _ bytes => some (size, bytes.length)
  | some (size, length), text _ bytes => some (if length < bytes.length then bytes.length else size, bytes.length)

/-- A number finds no buffer, or one that has room for it. -/
def Fits (r : Option (ℕ × ℕ)) : Datum → Prop
  | number _ _ bytes => ∀ e ∈ r, bytes.length ≤ e.1
  | _ => True

instance (r : Option (ℕ × ℕ)) (d : Datum) : Decidable (d.Fits r) := by
  cases d <;> unfold Fits <;> infer_instance

def bindTo (p : Platform) : Datum → MYSQL_BIND → Except Trap MYSQL_BIND
  | null => fun b => .ok { b with buffer_type := MYSQL_TYPE_NULL }
  | number type is_unsigned bytes => bindNumber p type is_unsigned bytes
  | text type bytes => bindText p type bytes

end Datum

variable {p : Platform} {s s' : MySQLStmt} {calls : List (ℤ × Value)} {ds : List Datum} {d : Datum}
  {b : MYSQL_BIND} {count : ℕ}

/-- What is bound to a parameter by some calls. -/
def bound (p : Platform) (idx : ℤ) (calls : List (ℤ × Value)) : List Datum :=
  (calls.filter fun c => c.1 = idx).map fun c => c.2.datum p

/-- Every number comes to a buffer that has room for it, by what was bound to its parameter before. -/
def Roomy (p : Platform) (calls : List (ℤ × Value)) : Prop :=
  AtEach (fun before c => (c.2.datum p).Fits ((bound p c.1 before).foldl Datum.room none)) calls

instance (p : Platform) (calls : List (ℤ × Value)) : Decidable (Roomy p calls) :=
  inferInstanceAs (Decidable (AtEach _ calls))

/-- No call writes behind a buffer, and each parameter sends what was bound to it last. -/
def Kept (p : Platform) (count : ℕ) (calls : List (ℤ × Value)) : Prop :=
  ∃ s, (Create count).bindAll p calls = .ok s ∧ ∀ idx, ∀ d ∈ (bound p idx calls).getLast?,
    ∃ b ∈ s.m_binds[(idx - 1).toNat]?, d.SentBy b

/-- The parameters of the calls are those of the statement. -/
def InRange (count : ℕ) (calls : List (ℤ × Value)) : Prop := ∀ c ∈ calls, 1 ≤ c.1 ∧ c.1 ≤ count

instance (count : ℕ) (calls : List (ℤ × Value)) : Decidable (InRange count calls) :=
  inferInstanceAs (Decidable (∀ c ∈ calls, 1 ≤ c.1 ∧ c.1 ≤ count))

/-! ## One parameter -/

@[simp] theorem length_malloc (p : Platform) (size : ℕ) : (malloc p size).length = size := by simp [malloc]

theorem memcpy_ok {dest src : List UInt8} (h : src.length ≤ dest.length) :
    memcpy dest src = .ok (src ++ dest.drop src.length) := by
  simp [memcpy, h, overwrite]

theorem memcpy_error {dest src : List UInt8} (h : ¬ src.length ≤ dest.length) :
    memcpy dest src = .error .outOfBlock := by
  rw [memcpy, if_neg h]

/-- A parameter behind what was bound to it. -/
structure Behind (ds : List Datum) (b : MYSQL_BIND) : Prop where
  last : ∀ d ∈ ds.getLast?, d.SentBy b
  room : ds.foldl Datum.room none = b.buffer.map fun buffer => (buffer.length, b.buffer_length)
  within : ∀ buffer ∈ b.buffer, b.buffer_length ≤ buffer.length

theorem behind_nil : Behind [] ⟨none, 0, MYSQL_TYPE_DECIMAL, false⟩ :=
  ⟨fun d hd => by simp at hd, rfl, fun buffer hbuffer => by simp at hbuffer⟩

theorem Behind.bindNull (h : Behind ds b) : Behind (ds ++ [.null]) { b with buffer_type := MYSQL_TYPE_NULL } := by
  refine ⟨?_, ?_, h.within⟩
  · simp [Datum.SentBy]
  · rw [List.foldl_append, h.room]
    cases b.buffer <;> rfl

theorem length_copied {bytes dest : List UInt8} (h : bytes.length ≤ dest.length) :
    (bytes ++ dest.drop bytes.length).length = dest.length := by
  simp only [List.length_append, List.length_drop]
  omega

theorem Behind.bindNumber (h : Behind ds b) (p : Platform) (type : enum_field_types) (is_unsigned : Option Bool)
    {bytes : List UInt8} (hfits : (Datum.number type is_unsigned bytes).Fits (ds.foldl Datum.room none)) :
    ∃ b', bindNumber p type is_unsigned bytes b = .ok b' ∧ Behind (ds ++ [.number type is_unsigned bytes]) b' := by
  have hdest : bytes.length ≤ (b.buffer.getD (malloc p bytes.length)).length := by
    rw [h.room] at hfits
    cases hbuffer : b.buffer with
    | none => simp
    | some buffer =>
      rw [hbuffer] at hfits
      exact hfits _ rfl
  have hcopied := length_copied hdest
  refine ⟨_, by rw [MYSQL_BIND.bindNumber, BIND_COPY, memcpy_ok hdest]; rfl, ?_, ?_, ?_⟩
  · intro d hd
    obtain rfl : Datum.number type is_unsigned bytes = d := by simpa using hd
    refine ⟨rfl, fun u hu => ?_, _, rfl, ?_, ?_⟩
    · rw [Option.mem_def.mp hu]
      rfl
    · exact hcopied ▸ hdest
    · exact List.take_left
  · rw [List.foldl_append, h.room, Option.map_some, hcopied]
    cases b.buffer with
    | none => simp [Datum.room]
    | some buffer => rfl
  · intro buffer hbuffer
    obtain rfl := Option.some.inj hbuffer
    exact hcopied ▸ hdest

theorem Behind.textRoom (h : Behind ds b) (p : Platform) (bytes : List UInt8) : bytes.length ≤
    (match b.buffer with
      | none => malloc p bytes.length
      | some buffer => if b.buffer_length < bytes.length then malloc p bytes.length else buffer).length := by
  cases hbuffer : b.buffer with
  | none => simp
  | some buffer =>
    have hwithin := h.within buffer hbuffer
    dsimp only
    split
    · simp
    · omega

theorem Behind.bindText (h : Behind ds b) (p : Platform) (type : enum_field_types) (bytes : List UInt8) :
    ∃ b', bindText p type bytes b = .ok b' ∧ Behind (ds ++ [.text type bytes]) b' := by
  have hdest := h.textRoom p bytes
  have hcopied := length_copied hdest
  refine ⟨_, by rw [MYSQL_BIND.bindText, BIND_COPY_LEN, memcpy_ok hdest]; rfl, ?_, ?_, ?_⟩
  · intro d hd
    obtain rfl : Datum.text type bytes = d := by simpa using hd
    exact ⟨rfl, _, rfl, hcopied ▸ hdest, List.take_left⟩
  · rw [List.foldl_append, h.room, Option.map_some, hcopied]
    cases b.buffer with
    | none => simp [Datum.room]
    | some buffer =>
      simp only [Option.map_some, List.foldl_cons, List.foldl_nil, Datum.room]
      split <;> simp
  · intro buffer hbuffer
    obtain rfl := Option.some.inj hbuffer
    exact hcopied ▸ hdest

theorem Behind.bindTo (h : Behind ds b) (p : Platform) (hfits : d.Fits (ds.foldl Datum.room none)) :
    ∃ b', d.bindTo p b = .ok b' ∧ Behind (ds ++ [d]) b' := by
  cases d with
  | null => exact ⟨_, rfl, h.bindNull⟩
  | number type is_unsigned bytes => exact h.bindNumber p type is_unsigned hfits
  | text type bytes => exact h.bindText p type bytes

theorem Behind.bindTo_error (h : Behind ds b) (p : Platform) (hfits : ¬ d.Fits (ds.foldl Datum.room none)) :
    d.bindTo p b = .error .outOfBlock := by
  cases d with
  | null => exact absurd trivial hfits
  | text type bytes => exact absurd trivial hfits
  | number type is_unsigned bytes =>
    rw [h.room] at hfits
    cases hbuffer : b.buffer with
    | none =>
      rw [hbuffer] at hfits
      exact absurd (fun e he => by simp at he) hfits
    | some buffer =>
      have hdest : ¬ bytes.length ≤ buffer.length := by
        rw [hbuffer] at hfits
        intro hle
        exact hfits fun e he => Option.some.inj he ▸ hle
      rw [Datum.bindTo, MYSQL_BIND.bindNumber, BIND_COPY, hbuffer, Option.getD_some, memcpy_error hdest]
      rfl

/-! ## The statement -/

theorem bind_eq (p : Platform) (s : MySQLStmt) (idx : ℤ) (value : Value) :
    s.bind p idx value = s.onBind idx ((value.datum p).bindTo p) := by
  cases value <;> rfl

theorem onBind_eq {idx : ℤ} (hidx : 1 ≤ idx) {f : MYSQL_BIND → Except Trap MYSQL_BIND}
    (hb : s.m_binds[(idx - 1).toNat]? = some b) :
    s.onBind idx f = (f b).map fun b => { s with m_binds := s.m_binds.set (idx - 1).toNat b } := by
  rw [onBind, if_neg (by omega), hb]
  dsimp only
  cases f b <;> rfl

/-- Every parameter is behind what was bound to it. -/
structure Holds (p : Platform) (count : ℕ) (calls : List (ℤ × Value)) (s : MySQLStmt) : Prop where
  length : s.m_binds.length = count
  behind : ∀ (i : ℕ) (b : MYSQL_BIND), s.m_binds[i]? = some b → Behind (bound p (i + 1) calls) b

theorem holds_create (p : Platform) (count : ℕ) : Holds p count [] (Create count) := by
  refine ⟨List.length_replicate, fun i b hb => ?_⟩
  rw [Create, List.getElem?_replicate] at hb
  split at hb
  · obtain rfl := Option.some.inj hb
    exact behind_nil
  · cases hb

theorem bound_append (idx : ℤ) (calls : List (ℤ × Value)) (c : ℤ × Value) : bound p idx (calls ++ [c]) =
    bound p idx calls ++ if c.1 = idx then [c.2.datum p] else [] := by
  rw [bound, List.filter_append, List.map_append, bound]
  split <;> simp_all

theorem Holds.param (h : Holds p count calls s) {idx : ℤ} (hidx : 1 ≤ idx ∧ idx ≤ count) :
    ∃ b, s.m_binds[(idx - 1).toNat]? = some b ∧ Behind (bound p idx calls) b := by
  have hlt : (idx - 1).toNat < s.m_binds.length := by
    rw [h.length]
    omega
  have hb := List.getElem?_eq_getElem hlt
  have hbehind := h.behind _ _ hb
  have hidx : (((idx - 1).toNat : ℤ) + 1) = idx := by omega
  rw [hidx] at hbehind
  exact ⟨_, hb, hbehind⟩

theorem Holds.bind (h : Holds p count calls s) {c : ℤ × Value} (hidx : 1 ≤ c.1 ∧ c.1 ≤ count)
    (hfits : (c.2.datum p).Fits ((bound p c.1 calls).foldl Datum.room none)) :
    ∃ s', s.bind p c.1 c.2 = .ok s' ∧ Holds p count (calls ++ [c]) s' := by
  obtain ⟨b, hb, hbehind⟩ := h.param hidx
  obtain ⟨b', hbind, hbehind'⟩ := hbehind.bindTo p hfits
  refine ⟨_, by rw [bind_eq, onBind_eq hidx.1 hb, hbind]; rfl, ?_, fun i d hd => ?_⟩
  · exact (List.length_set).trans h.length
  · rw [bound_append]
    by_cases hi : i = (c.1 - 1).toNat
    · have hidx' : c.1 = (i : ℤ) + 1 := by omega
      rw [if_pos hidx', ← hidx']
      rw [hi, List.getElem?_set_self (List.getElem?_eq_some_iff.mp hb).1] at hd
      obtain rfl := Option.some.inj hd
      exact hbehind'
    · have hidx' : c.1 ≠ (i : ℤ) + 1 := by omega
      rw [List.getElem?_set_ne (Ne.symm hi)] at hd
      rw [if_neg hidx', List.append_nil]
      exact h.behind i d hd

theorem Holds.bind_error (h : Holds p count calls s) {c : ℤ × Value} (hidx : 1 ≤ c.1 ∧ c.1 ≤ count)
    (hfits : ¬ (c.2.datum p).Fits ((bound p c.1 calls).foldl Datum.room none)) :
    s.bind p c.1 c.2 = .error .outOfBlock := by
  obtain ⟨b, hb, hbehind⟩ := h.param hidx
  rw [bind_eq, onBind_eq hidx.1 hb, hbehind.bindTo_error p hfits]
  rfl

theorem inRange_append {c : ℤ × Value} (h : InRange count (calls ++ [c])) :
    InRange count calls ∧ 1 ≤ c.1 ∧ c.1 ≤ count :=
  ⟨fun d hd => h d (List.mem_append_left _ hd), h c (List.mem_append_right _ List.mem_cons_self)⟩

theorem bindAll_roomy (hrange : InRange count calls) (h : Roomy p calls) :
    ∃ s, (Create count).bindAll p calls = .ok s ∧ Holds p count calls s := by
  induction calls using List.reverseRecOn with
  | nil => exact ⟨_, rfl, holds_create p count⟩
  | append_singleton calls c ih =>
    obtain ⟨hrange, hidx⟩ := inRange_append hrange
    obtain ⟨h, hfits⟩ := atEach_append.mp h
    obtain ⟨s, hs, hholds⟩ := ih hrange h
    obtain ⟨s', hbind, hholds'⟩ := hholds.bind hidx hfits
    refine ⟨s', ?_, hholds'⟩
    rw [bindAll, foldlM_append_singleton, ← bindAll, hs]
    exact hbind

theorem roomy_of_ok (hrange : InRange count calls) (h : (Create count).bindAll p calls = .ok s) :
    Roomy p calls := by
  induction calls using List.reverseRecOn generalizing s with
  | nil => exact atEach_nil _
  | append_singleton calls c ih =>
    obtain ⟨hrange, hidx⟩ := inRange_append hrange
    rw [bindAll, foldlM_append_singleton, ← bindAll] at h
    cases hs : (Create count).bindAll p calls with
    | error e =>
      rw [hs] at h
      cases h
    | ok t =>
      rw [hs] at h
      have hroomy := ih hrange hs
      refine atEach_append.mpr ⟨hroomy, ?_⟩
      by_contra hfits
      obtain ⟨t', ht, hholds⟩ := bindAll_roomy hrange hroomy
      obtain rfl : t = t' := Except.ok.inj (hs.symm.trans ht)
      have herror := hholds.bind_error hidx hfits
      exact absurd (herror.symm.trans h) (by simp)

theorem kept_of_roomy (hrange : InRange count calls) (h : Roomy p calls) : Kept p count calls := by
  obtain ⟨s, hs, hholds⟩ := bindAll_roomy hrange h
  refine ⟨s, hs, fun idx d hd => ?_⟩
  have hidx : 1 ≤ idx ∧ idx ≤ count := by
    by_contra hout
    have hnone : bound p idx calls = [] := by
      rw [bound, List.filter_eq_nil_iff.mpr, List.map_nil]
      intro c hc heq
      exact hout (of_decide_eq_true heq ▸ hrange c hc)
    rw [hnone] at hd
    cases hd
  obtain ⟨b, hb, hbehind⟩ := hholds.param hidx
  exact ⟨b, hb, hbehind.last d hd⟩

theorem roomy_of_nodup (h : (calls.map Prod.fst).Nodup) : Roomy p calls := by
  intro before c hc
  have hnone : bound p c.1 before = [] := by
    have hnodup := (hc.map Prod.fst).nodup h
    rw [List.map_append, List.nodup_append] at hnodup
    rw [bound, List.filter_eq_nil_iff.mpr, List.map_nil]
    intro d hd heq
    exact hnodup.2.2 d.1 (List.mem_map_of_mem hd) c.1 (by simp) (of_decide_eq_true heq)
  rw [hnone]
  cases c.2.datum p <;> simp [Datum.Fits]

/-- `MySQLBinder` binds each parameter once. -/
theorem binds_once_kept (hrange : InRange count calls) (h : (calls.map Prod.fst).Nodup) : Kept p count calls :=
  kept_of_roomy hrange (roomy_of_nodup h)

/-- Calls write within the buffers and leave their values exactly when every number finds room. -/
theorem bind_kept_iff (p : Platform) {count : ℕ} {calls : List (ℤ × Value)} (h : InRange count calls) :
    Kept p count calls ↔ Roomy p calls := by
  constructor
  · rintro ⟨s, hs, -⟩
    exact roomy_of_ok h hs
  · intro hroomy
    exact kept_of_roomy h hroomy

/-- A byte finds room where eight were. -/
theorem bind_kept_iff_narrower :
    Kept ⟨.little, fun _ => 0, fun _ => []⟩ 1 [(1, .int64 5), (1, .null), (1, .int8 3)] := by
  exact (bind_kept_iff _ (by decide)).mpr (by decide)

/-- Eight bytes are written where one is. -/
theorem wider_overflows : ¬ ∀ (p : Platform) (count : ℕ) (calls : List (ℤ × Value)),
    InRange count calls → Kept p count calls := by
  intro hall
  obtain ⟨s, hs, -⟩ := hall ⟨.little, fun _ => 0, fun _ => []⟩ 1 [(1, .int8 0), (1, .int64 0)] (by decide)
  have hroomy := roomy_of_ok (by decide) hs
  exact absurd (hroomy [(1, .int8 0)] (1, .int64 0) (List.prefix_refl _)) (by decide)

end MySQLStmt
end Flz
