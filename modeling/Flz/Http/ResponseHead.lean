import Flz.Http.Connection
import Flz.Lib.Walks

/-! # The head of a response

A status line and fields, and how the automaton reads them. It takes `Connection`,
`Transfer-Encoding` and `Content-Length` apart from other names, and a line break behind one of
them for a blank before its value: when the last field is one of them and has no value, the head
ends in a state that is not the final one.
-/
namespace Flz.Http
open Lib

/-- The bytes of a reason and of a value. -/
def textChar : ByteClass := [(0, 9), (11, 12), (14, 255)]

def blankChar : ByteClass := [(9, 9), (11, 12), (32, 32)]

/-! ## The states of a field -/

def fieldStarts : List ℕ := [20, 36, 43, 62, 113]

/-- In a name that may be one of those that the automaton knows, or in another one. -/
def nameStates : List ℕ :=
  21 :: List.range' 25 10 ++ List.range' 44 17 ++ List.range' 73 7 ++ List.range' 90 5 ++
    List.range' 101 11 ++ [117]

/-- Behind a name that the automaton knows. -/
def knownNames : List ℕ := [34, 60, 111]

def valueStates : List ℕ :=
  [22, 23, 35, 61] ++ List.range' 81 7 ++ List.range' 96 5 ++ [112, 119]

/-- In a value that no line break starts anew. -/
def plainValues : List ℕ := [22, 23] ++ List.range' 81 7 ++ List.range' 96 5 ++ [119]

/-- The letters that were read of a name that the automaton knows. -/
def nameLabel (t : ℕ) : Option (List UInt8) :=
  if fieldStarts.contains t then some []
  else if t = 73 ∨ t = 90 then some (ascii "c")
  else if 25 ≤ t ∧ t ≤ 34 then some ((ascii "connection").take (t - 24))
  else if 44 ≤ t ∧ t ≤ 60 then some ((ascii "transfer-encoding").take (t - 43))
  else if 101 ≤ t ∧ t ≤ 111 then some ((ascii "content-length").take (t - 97))
  else none

/-- The bytes that `tolower` takes to a letter of a word. -/
def letterClass (a : UInt8) : ByteClass := if 97 ≤ a ∧ a ≤ 122 then [(a - 32, a - 32), (a, a)] else [(a, a)]

/-- A word in any case with the states behind its letters. -/
def wordStates (word : List UInt8) (s : ℕ) : List (ByteClass × ℕ) :=
  (word.map letterClass).zip (List.range' s word.length)

def responseLeads (S : List ℕ) (c : ByteClass) (T : List ℕ) : Bool :=
  Scanner.leads ResponseTable.rows (· == .done) S c T

set_option maxRecDepth 20000 in
theorem fieldArcs :
    responseLeads fieldStarts ResponseTable.token nameStates = true ∧
    responseLeads nameStates ResponseTable.token nameStates = true ∧
    responseLeads nameStates (ByteClass.byte 58) valueStates = true ∧
    responseLeads valueStates textChar valueStates = true ∧
    responseLeads valueStates (ByteClass.byte 13) [24, 71, 80, 88, 95, 118] = true ∧
    responseLeads [24, 71, 80, 88, 95, 118] (ByteClass.byte 10) fieldStarts = true := by
  decide +kernel

set_option maxRecDepth 20000 in
/-- The arcs by which a head comes to its final state. -/
theorem closingArcs :
    responseLeads (nameStates.filter (!knownNames.contains ·)) (ByteClass.byte 58) plainValues = true ∧
    responseLeads valueStates [(0, 8), (14, 31), (33, 255)] plainValues = true ∧
    responseLeads plainValues textChar plainValues = true ∧
    responseLeads plainValues (ByteClass.byte 13) [24, 71, 88] = true ∧
    responseLeads [24, 71, 88] (ByteClass.byte 10) [20, 43] = true ∧
    responseLeads [20, 43] (ByteClass.byte 13) [3] = true := by
  decide +kernel

set_option maxRecDepth 20000 in
theorem nameLabels :
    responseLeads (fieldStarts ++ nameStates) ResponseTable.token (fieldStarts ++ nameStates) = true ∧
    Scanner.labels ResponseTable.rows tolower ResponseTable.token nameLabel
      (fieldStarts ++ nameStates) = true := by
  decide +kernel

set_option maxRecDepth 20000 in
/-- The arcs for a field that announces chunks. -/
theorem announcingArcs :
    Scanner.follows ResponseTable.rows (· == .done) fieldStarts
      (wordStates (ascii "transfer-encoding") 44) = true ∧
    responseLeads [60] (ByteClass.byte 58) [61] = true ∧ responseLeads [61] blankChar [61] = true ∧
    Scanner.follows ResponseTable.rows (· == .done) [61] (wordStates (ascii "chunked") 81) = true ∧
    responseLeads [87] (ByteClass.byte 13) [71] = true := by
  decide +kernel

set_option maxRecDepth 20000 in
theorem statusArcs :
    Scanner.follows ResponseTable.rows (· == .done) [1]
      (((ascii "HTTP/1.").map ByteClass.byte).zip (List.range' 8 7)) = true ∧
    responseLeads [14] ByteClass.digit [15] = true ∧
    responseLeads [15] (ByteClass.byte 32) [16] = true ∧ responseLeads [16] ByteClass.digit [17] = true ∧
    responseLeads [17] ByteClass.digit [17] = true ∧ responseLeads [17] (ByteClass.byte 32) [18] = true ∧
    responseLeads [18] textChar [19] = true ∧ responseLeads [19] textChar [19] = true ∧
    responseLeads [19] (ByteClass.byte 13) [24] = true ∧ responseLeads [24] (ByteClass.byte 10) [20] = true ∧
    responseLeads [18] (ByteClass.byte 13) [19] = true ∧ responseLeads [19] (ByteClass.byte 10) [20] = true := by
  decide +kernel

/-! ## Fields and heads -/

structure ResponseField where
  name : List UInt8
  value : List UInt8
  name_ne : name ≠ []
  name_token : ∀ b ∈ name, ResponseTable.token.holds b = true
  value_text : ∀ b ∈ value, textChar.holds b = true

namespace ResponseField

def text (f : ResponseField) : List UInt8 := f.name ++ (58 :: (f.value ++ [13, 10]))

/-- `Transfer-Encoding: chunked`, in any case and with any blanks before the value. -/
def Announces (f : ResponseField) : Prop :=
  f.name.map tolower = ascii "transfer-encoding" ∧
    (f.value.dropWhile blankChar.holds).map tolower = ascii "chunked"

/-- A field after which the head may end: it has a value, or a name that the automaton does not
know. -/
def Closes (f : ResponseField) : Prop :=
  f.value.dropWhile blankChar.holds ≠ [] ∨
    f.name.map tolower ∉ [ascii "connection", ascii "transfer-encoding", ascii "content-length"]

end ResponseField

/-- A head with the version 1.0 or 1.1. -/
structure ResponseHead where
  version : UInt8
  status : List UInt8
  reason : List UInt8
  fields : List ResponseField
  version_known : version = 48 ∨ version = 49
  status_ne : status ≠ []
  status_digits : ∀ b ∈ status, ByteClass.digit.holds b = true
  reason_text : ∀ b ∈ reason, textChar.holds b = true

namespace ResponseHead

def versionText (h : ResponseHead) : List UInt8 := ascii "HTTP/1." ++ [h.version]

/-- The rest of the status line behind the version and a blank. -/
def statusText (h : ResponseHead) : List UInt8 := h.status ++ (32 :: (h.reason ++ [13, 10]))

/-- What follows the version and a blank. -/
def afterVersion (h : ResponseHead) : List UInt8 :=
  h.statusText ++ (h.fields.flatMap ResponseField.text ++ [13, 10])

def text (h : ResponseHead) : List UInt8 := h.versionText ++ (32 :: h.afterVersion)

def Announces (h : ResponseHead) : Prop := ∃ f ∈ h.fields, f.Announces

def Closes (h : ResponseHead) : Prop := ∀ f ∈ h.fields.getLast?, f.Closes

end ResponseHead

/-! ## How a field is read -/

section
variable {S T : List ℕ} {c : ByteClass} {s p : ℕ} {w : List UInt8}

theorem response_walk (hfirst : responseLeads S c T = true) (hloop : responseLeads T c T = true)
    (hs : s ∈ S) (hne : w ≠ []) (hw : ∀ b ∈ w, c.holds b = true) :
    ∃ t ∈ T, responseScanner.Walks s w t := Scanner.exists_walk hfirst hloop hs hne hw

theorem response_loop (hloop : responseLeads S c S = true) (hs : s ∈ S)
    (hw : ∀ b ∈ w, c.holds b = true) : ∃ t ∈ S, responseScanner.Walks s w t :=
  Scanner.exists_walk_loop hloop hs hw

theorem response_step {b : UInt8} (h : responseLeads S c T = true) (hs : s ∈ S)
    (hb : c.holds b = true) : ∃ t ∈ T, responseScanner.Walks s [b] t := by
  obtain ⟨as, t, harc, hstay, ht⟩ := Scanner.exists_arc h hs hb
  exact ⟨t, ht, Scanner.walks_byte harc hstay⟩

theorem byte_holds (b : UInt8) : (ByteClass.byte b).holds b = true := by
  simp [ByteClass.byte, ByteClass.holds]

theorem response_byte {b : UInt8} (h : responseLeads S (ByteClass.byte b) T = true) (hs : s ∈ S) :
    ∃ t ∈ T, responseScanner.Walks s [b] t := response_step h hs (byte_holds b)

theorem field_walk (f : ResponseField) (hs : s ∈ fieldStarts) :
    ∃ t ∈ fieldStarts, responseScanner.Walks s f.text t := by
  obtain ⟨hstart, hname, hcolon, hvalue, hreturn, hend⟩ := fieldArcs
  obtain ⟨a, ha, hwalk⟩ := response_walk hstart hname hs f.name_ne f.name_token
  obtain ⟨v, hv, hwalk'⟩ := response_byte hcolon ha
  obtain ⟨v', hv', hwalk''⟩ := response_loop hvalue hv f.value_text
  obtain ⟨r, hr, hcr⟩ := response_byte hreturn hv'
  obtain ⟨t, ht, hlf⟩ := response_byte hend hr
  exact ⟨t, ht, hwalk.append (hwalk'.append (hwalk''.append (hcr.append hlf)))⟩

theorem value_start {b : UInt8} (hb : textChar.holds b = true) (hblank : blankChar.holds b = false) :
    ByteClass.holds [(0, 8), (14, 31), (33, 255)] b = true := by
  have h := forall_byte (p := fun b => !textChar.holds b || blankChar.holds b ||
    ByteClass.holds [(0, 8), (14, 31), (33, 255)] b) (by decide +kernel) b
  rw [hb, hblank] at h
  exact h

/-- The letters that a state in a name stands for are those of the name. -/
theorem name_label {name : List UInt8} (hs : s ∈ fieldStarts)
    (hname : ∀ b ∈ name, ResponseTable.token.holds b = true) {t : ℕ}
    (hwalk : responseScanner.Walks s name t) {l : List UInt8} (hl : nameLabel t = some l) :
    l = name.map tolower :=
  Scanner.label_walk nameLabels.2 nameLabels.1 (List.mem_append_left _ hs) hname
    (fun l' hl' => by
      have hzero : nameLabel s = some [] := if_pos (List.contains_iff_mem.mpr hs)
      rw [hzero] at hl'
      exact (Option.some.inj hl').symm) hwalk hl

/-- Behind another name than those that the automaton knows it is in no state of its own. -/
theorem unknown_name {name : List UInt8} (hs : s ∈ fieldStarts)
    (htoken : ∀ b ∈ name, ResponseTable.token.holds b = true)
    (hname : name.map tolower ∉ [ascii "connection", ascii "transfer-encoding", ascii "content-length"])
    {t : ℕ} (hwalk : responseScanner.Walks s name t) : t ∉ knownNames := by
  have hlabel : ∀ l, nameLabel t = some l → l = name.map tolower :=
    fun l hl => name_label hs htoken hwalk hl
  intro ht
  simp only [knownNames, List.mem_cons, List.not_mem_nil, or_false] at ht
  rcases ht with rfl | rfl | rfl <;> exact hname (by rw [← hlabel _ rfl]; decide)

theorem closing_walk {f : ResponseField} (hclose : f.Closes) (hs : s ∈ fieldStarts) :
    ∃ t ∈ [20, 43], responseScanner.Walks s f.text t := by
  obtain ⟨hstart, hname, hcolon, hvalue, -, -⟩ := fieldArcs
  obtain ⟨hunknown, hplain, hloop, hreturn, hend, -⟩ := closingArcs
  obtain ⟨a, ha, hwalk⟩ := response_walk hstart hname hs f.name_ne f.name_token
  have hclosed : ∃ v ∈ plainValues, responseScanner.Walks a (58 :: f.value) v := by
    rcases hclose with hne | hother
    · obtain ⟨b, more, hdrop⟩ := List.exists_cons_of_ne_nil hne
      have hsplit : f.value = f.value.takeWhile blankChar.holds ++ b :: more := by
        rw [← hdrop, List.takeWhile_append_dropWhile]
      have hblank : blankChar.holds b = false := by
        have h := List.head?_dropWhile_not blankChar.holds f.value
        rw [hdrop] at h
        simpa using h
      have htext : ∀ x ∈ f.value.takeWhile blankChar.holds ++ b :: more, textChar.holds x = true :=
        hsplit ▸ f.value_text
      obtain ⟨hblanks, hrest⟩ := List.forall_mem_append.mp htext
      obtain ⟨hb, hmore⟩ := List.forall_mem_cons.mp hrest
      obtain ⟨u, hu, hwalk₁⟩ := response_byte hcolon ha
      obtain ⟨u', hu', hwalk₂⟩ := response_loop hvalue hu hblanks
      obtain ⟨v, hv, hwalk₃⟩ := response_step hplain hu' (value_start hb hblank)
      obtain ⟨v', hv', hwalk₄⟩ := response_loop hloop hv hmore
      refine ⟨v', hv', ?_⟩
      rw [hsplit]
      exact hwalk₁.append (hwalk₂.append (hwalk₃.append hwalk₄))
    · have ha' : a ∈ nameStates.filter (!knownNames.contains ·) := by
        rw [List.mem_filter, Bool.not_eq_true', Bool.eq_false_iff, ne_eq, List.contains_iff_mem]
        exact ⟨ha, unknown_name hs f.name_token hother hwalk⟩
      obtain ⟨v, hv, hwalk₁⟩ := response_byte hunknown ha'
      obtain ⟨v', hv', hwalk₂⟩ := response_loop hloop hv f.value_text
      exact ⟨v', hv', hwalk₁.append hwalk₂⟩
  obtain ⟨v, hv, hwalk'⟩ := hclosed
  obtain ⟨r, hr, hcr⟩ := response_byte hreturn hv
  obtain ⟨t, ht, hlf⟩ := response_byte hend hr
  have htext : f.text = f.name ++ ((58 :: f.value) ++ ([13] ++ [10])) := rfl
  rw [htext]
  exact ⟨t, ht, hwalk.append (hwalk'.append (hcr.append hlf))⟩

/-! ## The field that announces chunks -/

theorem letterClass_holds (b : UInt8) : (letterClass (tolower b)).holds b = true :=
  forall_byte (p := fun b => (letterClass (tolower b)).holds b) (by decide +kernel) b

theorem wordStates_holds (w : List UInt8) (s : ℕ) :
    List.Forall₂ (fun b e => ByteClass.holds e.1 b = true) w (wordStates (w.map tolower) s) := by
  induction w generalizing s with
  | nil => exact List.Forall₂.nil
  | cons b w ih => exact List.Forall₂.cons (letterClass_holds b) (ih (s + 1))

theorem announcing_walk {f : ResponseField} (h : f.Announces) (hs : s ∈ fieldStarts) :
    responseScanner.Walks s (f.name ++ (58 :: (f.value ++ [13]))) 71 := by
  obtain ⟨hname, hvalue⟩ := h
  obtain ⟨hfollow, hcolon, hblank, hword, hreturn⟩ := announcingArcs
  have hname' := wordStates_holds f.name 44
  have hvalue' := wordStates_holds (f.value.dropWhile blankChar.holds) 81
  rw [hname] at hname'
  rw [hvalue] at hvalue'
  have hwalk₁ := Scanner.walks_word hfollow hs hname'
  obtain ⟨t₁, ht₁, hwalk₂⟩ := response_byte hcolon (List.mem_singleton_self 60)
  obtain ⟨t₂, ht₂, hwalk₃⟩ := response_loop hblank ht₁
    (List.all_eq_true.mp (List.all_takeWhile (l := f.value) (p := blankChar.holds)))
  have hwalk₄ := Scanner.walks_word hword ht₂ hvalue'
  obtain ⟨t₃, ht₃, hwalk₅⟩ := response_byte hreturn (List.mem_singleton_self 87)
  rw [List.mem_singleton] at ht₃
  subst ht₃
  have hjoin := hwalk₁.append (hwalk₂.append ((hwalk₃.append hwalk₄).append hwalk₅))
  rwa [List.takeWhile_append_dropWhile] at hjoin

/-! ## How a head is read -/

theorem fields_walk (fs : List ResponseField) (hs : s ∈ fieldStarts) :
    ∃ t ∈ fieldStarts, responseScanner.Walks s (fs.flatMap ResponseField.text) t := by
  induction fs generalizing s with
  | nil => exact ⟨s, hs, Scanner.Walks.nil⟩
  | cons f fs ih =>
    obtain ⟨u, hu, hwalk⟩ := field_walk f hs
    obtain ⟨t, ht, hwalk'⟩ := ih hu
    exact ⟨t, ht, hwalk.append hwalk'⟩

theorem closing_fields_walk {fs : List ResponseField} (hclose : ∀ f ∈ fs.getLast?, f.Closes) :
    ∃ t ∈ [20, 43], responseScanner.Walks 20 (fs.flatMap ResponseField.text) t := by
  rcases List.eq_nil_or_concat fs with rfl | ⟨fs, f, rfl⟩
  · exact ⟨20, List.mem_cons_self, Scanner.Walks.nil⟩
  · obtain ⟨u, hu, hwalk⟩ := fields_walk fs (s := 20) (by decide)
    obtain ⟨t, ht, hwalk'⟩ := closing_walk (hclose f (by simp)) hu
    refine ⟨t, ht, ?_⟩
    rw [List.concat_eq_append, List.flatMap_append, List.flatMap_singleton]
    exact hwalk.append hwalk'

theorem bytes_hold (w : List UInt8) (s : ℕ) :
    List.Forall₂ (fun b e => ByteClass.holds e.1 b = true) w
      ((w.map ByteClass.byte).zip (List.range' s w.length)) := by
  induction w generalizing s with
  | nil => exact List.Forall₂.nil
  | cons b w ih => exact List.Forall₂.cons (byte_holds b) (ih (s + 1))

namespace ResponseHead
variable (h : ResponseHead)

theorem version_walk : responseScanner.Walks 1 h.versionText 15 := by
  obtain ⟨hword, hdigit, -⟩ := statusArcs
  have hwalk := Scanner.walks_word hword List.mem_cons_self (bytes_hold (ascii "HTTP/1.") 8)
  have hversion : ByteClass.digit.holds h.version = true := by
    rcases h.version_known with hv | hv <;> rw [hv] <;> decide
  obtain ⟨t, ht, hwalk'⟩ := response_step hdigit (List.mem_singleton_self 14) hversion
  rw [List.mem_singleton] at ht
  subst ht
  exact hwalk.append hwalk'

theorem blank_walk : responseScanner.Walks 15 [32] 16 := by
  obtain ⟨-, -, hblank, -⟩ := statusArcs
  obtain ⟨t, ht, hwalk⟩ := response_byte hblank (List.mem_singleton_self 15)
  rwa [List.mem_singleton.mp ht] at hwalk

theorem reason_walk : responseScanner.Walks 18 (h.reason ++ [13, 10]) 20 := by
  obtain ⟨-, -, -, -, -, -, hfirst, hloop, hreturn, hend, hempty, hend'⟩ := statusArcs
  by_cases hne : h.reason = []
  · rw [hne]
    obtain ⟨t, ht, hcr⟩ := response_byte hempty (List.mem_singleton_self 18)
    obtain ⟨u, hu, hlf⟩ := response_byte hend' ht
    rw [List.mem_singleton] at hu
    subst hu
    exact hcr.append hlf
  · obtain ⟨v, hv, hreason⟩ := response_walk hfirst hloop (List.mem_singleton_self 18) hne h.reason_text
    obtain ⟨t, ht, hcr⟩ := response_byte hreturn hv
    obtain ⟨u, hu, hlf⟩ := response_byte hend ht
    rw [List.mem_singleton] at hu
    subst hu
    exact hreason.append (hcr.append hlf)

theorem status_walk : responseScanner.Walks 16 h.statusText 20 := by
  obtain ⟨-, -, -, hfirst, hloop, hblank, -⟩ := statusArcs
  obtain ⟨t, ht, hdigits⟩ :=
    response_walk hfirst hloop (List.mem_singleton_self 16) h.status_ne h.status_digits
  obtain ⟨u, hu, hspace⟩ := response_byte hblank ht
  rw [List.mem_singleton] at hu
  subst hu
  exact hdigits.append (hspace.append h.reason_walk)

/-- All of a head is consumed, and then the automaton is in its final state. -/
theorem stop_text (hclose : h.Closes) (rest : List UInt8) :
    responseScanner.stop 1 (h.text ++ rest) = (h.text.length, .left 120) := by
  obtain ⟨t, ht, hfields⟩ := closing_fields_walk hclose
  obtain ⟨u, hu, hcr⟩ := response_byte closingArcs.2.2.2.2.2 ht
  rw [List.mem_singleton] at hu
  subst hu
  have hwalk := h.version_walk.append (blank_walk.append (h.status_walk.append (hfields.append hcr)))
  have hlast : responseScanner.stop 3 (10 :: rest) = (1, .left 120) := rfl
  have htext : h.text ++ rest = h.versionText ++ ([32] ++ (h.statusText ++
      (h.fields.flatMap ResponseField.text ++ [13]))) ++ 10 :: rest := by
    simp [text, afterVersion, List.append_assoc]
  have hlen : h.text.length = (h.versionText ++ ([32] ++ (h.statusText ++
      (h.fields.flatMap ResponseField.text ++ [13])))).length + 1 := by
    simp [text, afterVersion, Nat.add_assoc]
  rw [htext, hwalk.stop_append, hlast, hlen]

/-- The flag for chunks is set on the way. -/
theorem announced (hannounce : h.Announces) (p : ℕ) :
    ∃ e ∈ responseScanner.trace p 16 h.afterVersion, e.2 = .transChunked := by
  obtain ⟨f, hf, hannounces⟩ := hannounce
  obtain ⟨before, after, hsplit⟩ := List.append_of_mem hf
  obtain ⟨t, ht, hbefore⟩ := fields_walk before (s := 20) (by decide)
  have hwalk := h.status_walk.append (hbefore.append (announcing_walk hannounces ht))
  have htext : h.afterVersion = h.statusText ++ (before.flatMap ResponseField.text ++
      (f.name ++ (58 :: (f.value ++ [13])))) ++ 10 :: (after.flatMap ResponseField.text ++ [13, 10]) := by
    rw [afterVersion, hsplit]
    simp [ResponseField.text, List.append_assoc]
  rw [htext, hwalk.trace_append]
  exact ⟨_, List.mem_append_right _ List.mem_cons_self, rfl⟩

end ResponseHead

set_option maxRecDepth 20000 in
/-- The version is read once. -/
theorem responseScanner_version :
    responseScanner.Once (· == .httpVersion) (fun s => s == 3 || 16 ≤ s) :=
  Scanner.once_of_checkRows (by decide +kernel)

end
end Flz.Http
