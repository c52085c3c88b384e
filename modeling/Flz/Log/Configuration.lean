import Flz.Log.Define

/-! # Configured loggers

What a change of the variable `logs` makes of the loggers that it names, and of those that it does
not name any more.
-/
namespace Flz
open Lib

/-- The appender of a definition, on a logger with some formatter. -/
def LogAppenderDefine.made (val : String) (a : LogAppenderDefine) : LogAppender where
  type := a.type
  file := if a.type = .FileLogAppender then a.file else ""
  level := a.level
  formatter := some (if a.formatter = "" then val else a.formatter)
  hasFormatter := true

namespace LogDefine

/-- Formatters that are given are taken. -/
structure Valid (e : LogContext) (i : LogDefine) : Prop where
  formatter : i.formatter ≠ "" → e.isError i.formatter = false
  appenders : ∀ a ∈ i.appenders, a.formatter ≠ "" → e.isError a.formatter = false

/-- The formatter that a definition gives, or the one that the logger has. -/
def given (i : LogDefine) (val : String) : String := if i.formatter = "" then val else i.formatter

theorem given_given (i : LogDefine) (val : String) : i.given (i.given val) = i.given val := by
  by_cases h : i.formatter = "" <;> simp [given, h]

theorem eq_iff {i j : LogDefine} :
    i.eq j = true ↔ i.name = j.name ∧ i.level = j.level ∧ i.formatter = j.formatter := by
  simp [eq, and_assoc]

end LogDefine

namespace LogDefines
variable {s : LogDefines} {i j : LogDefine}

theorem names (s : LogDefines) : s.toList.Pairwise fun i j => i.name ≠ j.name :=
  s.sorted.imp fun h => ne_of_lt h

theorem mem_of_find (h : s.find i = some j) : j ∈ s.toList ∧ j.name = i.name :=
  ⟨List.mem_of_find?_eq_some h, by simpa using List.find?_some h⟩

theorem find_isSome_of_mem (h : j ∈ s.toList) (hname : j.name = i.name) : (s.find i).isSome :=
  List.find?_isSome.mpr ⟨j, h, by simpa using hname⟩

end LogDefines

namespace LoggerManager
variable {e : LogContext} {m m' : LoggerManager} {i j : LogDefine} {l : Logger} {name val n : String}

/-- All appenders have a formatter. -/
def Equipped (m : LoggerManager) : Prop := ∀ a ∈ m.appenders, a.hasFormatter = true

/-- A logger is as its definition says, with a formatter. -/
def Shows (m : LoggerManager) (i : LogDefine) (val : String) : Prop :=
  ∃ l, m.loggers i.name = some l ∧ l.level = i.level ∧ l.formatter = val ∧
    l.appenders.map (m.appenders[·]?) = i.appenders.map fun a => some (a.made val)

theorem Shows.frame (h : m.Shows i val) (hloggers : m'.loggers i.name = m.loggers i.name)
    (happenders : m.appenders <+: m'.appenders) : m'.Shows i val := by
  obtain ⟨l, hl, hlevel, hformatter, hmap⟩ := h
  refine ⟨l, hloggers.trans hl, hlevel, hformatter, ?_⟩
  rw [← hmap]
  refine List.map_congr_left fun k hk => ?_
  have hvalid : ∃ a, m.appenders[k]? = some a := by
    have hmem : m.appenders[k]? ∈ l.appenders.map (m.appenders[·]?) := List.mem_map_of_mem hk
    rw [hmap] at hmem
    obtain ⟨a, -, ha⟩ := List.mem_map.mp hmem
    exact ⟨_, ha.symm⟩
  obtain ⟨a, ha⟩ := hvalid
  obtain ⟨as, has⟩ := happenders
  rw [← has, List.getElem?_append_left (List.getElem?_eq_some_iff.mp ha).1]

theorem modify_fixed {α : Type} {f : α → α} {xs : List α} (h : ∀ a ∈ xs, f a = a) (k : ℕ) :
    xs.modify k f = xs := by
  refine List.ext_getElem? fun j => ?_
  rw [List.getElem?_modify]
  cases hj : xs[j]? with
  | none => rfl
  | some a =>
    have ha := h a (List.mem_of_getElem? hj)
    split
    · exact congrArg some ha
    · rfl

theorem modify_end {α : Type} (f : α → α) (xs : List α) (a : α) :
    (xs ++ [a]).modify xs.length f = xs ++ [f a] := by
  induction xs with
  | nil => rfl
  | cons x xs ih => exact congrArg (x :: ·) ih

theorem Equipped.inherit (h : m.Equipped) (ids : List ℕ) (val : String) : m.inherit ids val = m := by
  have hfixed : ids.foldl (fun as i => as.modify i (·.inherit val)) m.appenders = m.appenders := by
    induction ids with
    | nil => rfl
    | cons k ids ih =>
      rw [List.foldl_cons, modify_fixed fun a ha => ?_, ih]
      exact if_pos (h a ha)
  rw [LoggerManager.inherit, hfixed]

/-! ## The steps of the listener -/

/-- A logger in the place of the one that has its name. -/
def put (m : LoggerManager) (name : String) (l : Logger) : LoggerManager :=
  { m with loggers := Function.update m.loggers name (some l) }

theorem change_put (m : LoggerManager) (name : String) (l : Logger) (f : Logger → Logger) :
    (m.put name l).change name f = m.put name (f l) := by
  simp only [put, change, Function.update_self, Option.map_some, Function.update_idem]

theorem getLogger_put (m : LoggerManager) (name : String) :
    m.getLogger name = m.put name (m.logger name) := by
  rw [getLogger, put, logger]
  cases hname : m.loggers name with
  | none => rfl
  | some l =>
    rw [Option.getD_some, ← hname, Function.update_eq_self]
    simp [hname]

theorem Equipped.setFormatter_put (h : m.Equipped) {isError : String → Bool} (hval : isError val = false)
    (name : String) (l : Logger) :
    (m.put name l).setFormatter isError name val = m.put name { l with formatter := val } := by
  have hequipped : (m.put name l).Equipped := h
  have hself : (m.put name l).loggers name = some l := Function.update_self ..
  rw [setFormatter, hval, hself]
  simp only [Bool.false_eq_true, if_false, hequipped.inherit, change_put]

/-- An appender of a definition is made, and put behind the others. -/
theorem defineAppender_eq (hd : e.daemon = false) (hl : m.loggers name = some l) {a : LogAppenderDefine}
    (ha : a.formatter ≠ "" → e.isError a.formatter = false) :
    defineAppender e name m a =
      { loggers := Function.update m.loggers name (some { l with appenders := l.appenders ++ [m.appenders.length] })
        appenders := m.appenders ++ [a.made l.formatter] } := by
  have hmade : (makeAppender e a).inherit l.formatter = a.made l.formatter := by
    by_cases h : a.formatter = ""
    · simp [makeAppender, h, LogAppender.inherit, LogAppender.new, LogAppender.setFormatter,
        LogAppenderDefine.made]
    · simp [makeAppender, h, ha h, LogAppender.inherit, LogAppender.new, LogAppender.setFormatter,
        LogAppenderDefine.made]
  have hcreated : (m.create (makeAppender e a)).loggers name = some l := hl
  have hinherit : (m.create (makeAppender e a)).inherit [m.appenders.length] l.formatter =
      { loggers := m.loggers, appenders := m.appenders ++ [a.made l.formatter] } := by
    simp only [LoggerManager.inherit, create, List.foldl_cons, List.foldl_nil, modify_end, hmade]
  rw [defineAppender, if_neg (by simp [hd]), addAppender, hcreated]
  simp only [hinherit, change, hl, Option.map_some]

theorem getElem?_range' {α : Type} (xs ys : List α) :
    (List.range' xs.length ys.length).map ((xs ++ ys)[·]?) = ys.map some := by
  refine List.ext_getElem (by simp) fun k hk _ => ?_
  have hlt : k < ys.length := by simpa using hk
  simp [hlt]

theorem defineAppenders_eq (hd : e.daemon = false) {ds : List LogAppenderDefine}
    (hds : ∀ a ∈ ds, a.formatter ≠ "" → e.isError a.formatter = false) (hl : m.loggers name = some l) :
    ds.foldl (defineAppender e name) m =
      { loggers := Function.update m.loggers name
          (some { l with appenders := l.appenders ++ List.range' m.appenders.length ds.length })
        appenders := m.appenders ++ ds.map (·.made l.formatter) } := by
  induction ds generalizing m l with
  | nil =>
    simp only [List.foldl_nil, List.length_nil, List.range'_zero, List.append_nil, List.map_nil, ← hl,
      Function.update_eq_self]
  | cons a ds ih =>
    rw [List.foldl_cons, defineAppender_eq hd hl (hds a List.mem_cons_self)]
    rw [ih (fun b hb => hds b (List.mem_cons_of_mem a hb)) (Function.update_self ..)]
    simp [List.range'_succ]

/-- A definition is put into effect on the logger that it names. -/
theorem define_eq (hd : e.daemon = false) (hm : m.Equipped) (hi : i.Valid e) :
    define e m i =
      { loggers := Function.update m.loggers i.name (some { m.logger i.name with
          level := i.level
          formatter := i.given (m.logger i.name).formatter
          appenders := List.range' m.appenders.length i.appenders.length })
        appenders := m.appenders ++ i.appenders.map (·.made (i.given (m.logger i.name).formatter)) } := by
  have hformatter : (if i.formatter ≠ "" then
      (m.put i.name { m.logger i.name with level := i.level }).setFormatter e.isError i.name i.formatter
      else m.put i.name { m.logger i.name with level := i.level }) =
      m.put i.name { m.logger i.name with
        level := i.level, formatter := i.given (m.logger i.name).formatter } := by
    by_cases h : i.formatter = ""
    · rw [if_neg (not_not_intro h), LogDefine.given, if_pos h]
    · rw [if_pos h, hm.setFormatter_put (hi.formatter h), LogDefine.given, if_neg h]
  rw [define, getLogger_put, setLevel, change_put]
  dsimp only
  rw [hformatter, clearAppenders, change_put, defineAppenders_eq hd hi.appenders (Function.update_self ..)]
  simp only [put, Function.update_idem, List.nil_append]

/-- A definition is put out of effect. -/
theorem undefine_eq (m : LoggerManager) (i : LogDefine) : undefine m i =
    m.put i.name { m.logger i.name with level := .UNKNOW, appenders := [] } := by
  rw [undefine, getLogger_put, setLevel, change_put, clearAppenders, change_put]

/-- What putting some definitions into effect does: those that are skipped leave their loggers as
they are. -/
structure Redefines (skipped : LogDefine → Prop) (is : List LogDefine) (m m' : LoggerManager) : Prop where
  equipped : m'.Equipped
  grows : m.appenders <+: m'.appenders
  others : ∀ n, (∀ i ∈ is, i.name ≠ n) → m'.loggers n = m.loggers n
  skips : ∀ i ∈ is, skipped i → m'.loggers i.name = m.loggers i.name
  defined : ∀ i ∈ is, ¬ skipped i → m'.Shows i (i.given (m.logger i.name).formatter)

/-- A definition that is the same for the listener. -/
def Skipped (old_value : LogDefines) (i : LogDefine) : Prop :=
  ∃ j, old_value.find i = some j ∧ i.eq j = true

theorem redefines_define (hd : e.daemon = false) (hm : m.Equipped) (hi : i.Valid e)
    {skipped : LogDefine → Prop} (hskip : ¬ skipped i) : Redefines skipped [i] m (define e m i) := by
  have hdefine := define_eq hd hm hi
  refine ⟨?_, ?_, fun n hn => ?_, fun j hj hs => ?_, fun j hj _ => ?_⟩
  · intro a ha
    rw [hdefine] at ha
    rcases List.mem_append.mp ha with ha | ha
    · exact hm a ha
    · obtain ⟨b, -, rfl⟩ := List.mem_map.mp ha
      rfl
  · rw [hdefine]
    exact List.prefix_append ..
  · rw [hdefine]
    exact Function.update_of_ne (hn i List.mem_cons_self).symm ..
  · rw [List.mem_singleton.mp hj] at hs
    exact absurd hs hskip
  · rw [List.mem_singleton.mp hj, hdefine]
    refine ⟨_, Function.update_self .., rfl, rfl, ?_⟩
    have hrange := getElem?_range' m.appenders
      (i.appenders.map (·.made (i.given (m.logger i.name).formatter)))
    rw [List.length_map, List.map_map] at hrange
    exact hrange

theorem redefines_applyNew (hd : e.daemon = false) (hm : m.Equipped) (hi : i.Valid e) (old_value : LogDefines) :
    Redefines (Skipped old_value) [i] m (applyNew e old_value m i) := by
  have hskip (hs : Skipped old_value i) : Redefines (Skipped old_value) [i] m m :=
    ⟨hm, List.prefix_rfl, fun _ _ => rfl, fun _ _ _ => rfl, fun j hj hn => by
      rw [List.mem_singleton.mp hj] at hn
      exact absurd hs hn⟩
  rw [applyNew]
  cases hfind : old_value.find i with
  | none =>
    refine redefines_define hd hm hi ?_
    rintro ⟨j, hj, -⟩
    rw [hfind] at hj
    cases hj
  | some j =>
    dsimp only
    split
    · rename_i heq
      exact hskip ⟨j, hfind, heq⟩
    · rename_i hne
      refine redefines_define hd hm hi ?_
      rintro ⟨j', hj', heq⟩
      rw [hfind] at hj'
      cases hj'
      exact hne heq

/-- Loggers are put into effect one after the other, each name once. -/
theorem redefines_foldl (hd : e.daemon = false) (old_value : LogDefines) {is : List LogDefine}
    (hnames : is.Pairwise fun i j => i.name ≠ j.name) (his : ∀ i ∈ is, i.Valid e) (hm : m.Equipped) :
    Redefines (Skipped old_value) is m (is.foldl (applyNew e old_value) m) := by
  induction is generalizing m with
  | nil => exact ⟨hm, List.prefix_rfl, fun _ _ => rfl, nofun, nofun⟩
  | cons i is ih =>
    obtain ⟨hi, hrest⟩ := List.pairwise_cons.mp hnames
    have hone := redefines_applyNew hd hm (his i List.mem_cons_self) old_value
    have hall := ih hrest (fun j hj => his j (List.mem_cons_of_mem i hj)) hone.equipped
    rw [List.foldl_cons]
    have hlater : ∀ j ∈ is, (applyNew e old_value m i).loggers j.name = m.loggers j.name := fun j hj =>
      hone.others j.name fun k hk => List.mem_singleton.mp hk ▸ hi j hj
    have hkept : (is.foldl (applyNew e old_value) (applyNew e old_value m i)).loggers i.name =
        (applyNew e old_value m i).loggers i.name := hall.others i.name fun j hj => (hi j hj).symm
    refine ⟨hall.equipped, hone.grows.trans hall.grows, fun n hn => ?_, fun j hj hs => ?_, fun j hj hs => ?_⟩
    · rw [hall.others n fun j hj => hn j (List.mem_cons_of_mem i hj)]
      exact hone.others n fun j hj => List.mem_singleton.mp hj ▸ hn i List.mem_cons_self
    · rcases List.mem_cons.mp hj with rfl | hj
      · exact hkept.trans (hone.skips _ List.mem_cons_self hs)
      · exact (hall.skips j hj hs).trans (hlater j hj)
    · rcases List.mem_cons.mp hj with rfl | hj
      · exact (hone.defined _ List.mem_cons_self hs).frame hkept hall.grows
      · have hshows := hall.defined j hj hs
        rwa [logger, hlater j hj, ← logger] at hshows

/-- A logger without appenders. -/
def Silent (m : LoggerManager) (name : String) : Prop := ∃ l, m.loggers name = some l ∧ l.appenders = []

theorem Silent.undefine (h : m.Silent n ∨ i.name = n) : (LoggerManager.undefine m i).Silent n := by
  rw [undefine_eq]
  by_cases hn : n = i.name
  · rw [hn]
    exact ⟨_, Function.update_self .., rfl⟩
  · obtain ⟨l, hl, hempty⟩ := h.resolve_right (Ne.symm hn)
    exact ⟨l, (Function.update_of_ne hn ..).trans hl, hempty⟩

/-- Definitions are put out of effect where the new value does not have them. -/
theorem undefines_foldl (new_value : LogDefines) (is : List LogDefine) (m : LoggerManager) :
    let m' := is.foldl (applyOld new_value) m
    m'.appenders = m.appenders ∧
      (∀ n, (∀ i ∈ is, i.name = n → (new_value.find i).isSome) → m'.loggers n = m.loggers n) ∧
      ∀ n, (m.Silent n ∨ ∃ i ∈ is, i.name = n ∧ new_value.find i = none) → m'.Silent n := by
  induction is generalizing m with
  | nil =>
    refine ⟨rfl, fun _ _ => rfl, fun n hn => ?_⟩
    obtain hn | ⟨i, hi, -⟩ := hn
    · exact hn
    · cases hi
  | cons i is ih =>
    obtain ⟨happenders, hothers, hsilent⟩ := ih (applyOld new_value m i)
    rw [List.foldl_cons]
    refine ⟨happenders.trans ?_, fun n hn => ?_, fun n hn => hsilent n ?_⟩
    · rw [applyOld]
      split
      · rfl
      · rw [undefine_eq]
        rfl
    · refine (hothers n fun j hj => hn j (List.mem_cons_of_mem i hj)).trans ?_
      rw [applyOld]
      split
      · rfl
      · rename_i hgone
        have hne : n ≠ i.name := fun h => hgone (hn i List.mem_cons_self h.symm)
        rw [undefine_eq]
        exact Function.update_of_ne hne ..
    · have hone : m.Silent n ∨ i.name = n ∧ new_value.find i = none → (applyOld new_value m i).Silent n := by
        intro h
        rw [applyOld]
        split
        · rename_i hfound
          refine h.resolve_right fun hgone => ?_
          rw [hgone.2] at hfound
          cases hfound
        · exact Silent.undefine (h.imp id And.left)
      obtain hn | ⟨j, hj, hname, hgone⟩ := hn
      · exact .inl (hone (.inl hn))
      · rcases List.mem_cons.mp hj with rfl | hj
        · exact .inl (hone (.inr ⟨hname, hgone⟩))
        · exact .inr ⟨j, hj, hname, hgone⟩

end LoggerManager

/-! ## The changes of the variable -/

/-- A change that is put into effect: the value is stored, the loggers are as it says, a formatter
that it does not give staying as it was, and the loggers that are gone have no appenders. -/
structure Configured (g : LogSystem) (v : LogDefines) (g' : LogSystem) : Prop where
  stored : g'.defines = v
  applied : ∀ i ∈ v.toList, g'.manager.Shows i (i.given (g.manager.logger i.name).formatter)
  removed : ∀ j ∈ g.defines.toList, v.find j = none → g'.manager.Silent j.name

namespace LogSystem
variable {e : LogContext} {g g' : LogSystem} {v : LogDefines} {a : LogAction} {as : List LogAction}

/-- A value that the stored one is told from if it has to, and whose event the root takes. -/
def Spared (g : LogSystem) (v : LogDefines) : Prop :=
  if v.eq g.defines then v = g.defines
  else g.Answers .INFO ∧ ∀ i ∈ v.toList, ∀ j, g.defines.find i = some j → i.eq j = true →
    i.appenders.map (·.made (g.manager.logger i.name).formatter) =
      j.appenders.map (·.made (g.manager.logger i.name).formatter)

/-- The loggers between the changes. -/
structure Kept (g : LogSystem) : Prop where
  rooted : g.manager.Rooted
  equipped : g.manager.Equipped
  applied : ∀ i ∈ g.defines.toList, g.manager.Shows i (i.given (g.manager.logger i.name).formatter)

theorem kept_new : new.Kept := by
  refine ⟨LoggerManager.rooted_new, ?_, nofun⟩
  intro a ha
  rw [List.mem_singleton.mp ha]
  rfl

/-- What a change that is noticed makes of the loggers. -/
theorem Kept.onChange (h : g.Kept) (hd : e.daemon = false) (hv : ∀ i ∈ v.toList, i.Valid e) :
    let m := g.manager.onChange e g.defines v
    m.Equipped ∧ g.manager.appenders <+: m.appenders ∧
      (∀ i ∈ v.toList, LoggerManager.Skipped g.defines i →
        m.loggers i.name = g.manager.loggers i.name) ∧
      (∀ i ∈ v.toList, ¬ LoggerManager.Skipped g.defines i →
        m.Shows i (i.given (g.manager.logger i.name).formatter)) ∧
      ∀ j ∈ g.defines.toList, v.find j = none → m.Silent j.name := by
  have hdefines := LoggerManager.redefines_foldl hd g.defines v.names hv h.equipped
  obtain ⟨happenders, hothers, hsilent⟩ := LoggerManager.undefines_foldl v g.defines.toList
    (v.toList.foldl (LoggerManager.applyNew e g.defines) g.manager)
  have hnamed : ∀ i ∈ v.toList, (g.manager.onChange e g.defines v).loggers i.name =
      (v.toList.foldl (LoggerManager.applyNew e g.defines) g.manager).loggers i.name := fun i hi =>
    hothers i.name fun j _ hname => LogDefines.find_isSome_of_mem hi hname.symm
  refine ⟨?_, ?_, fun i hi hs => (hnamed i hi).trans (hdefines.skips i hi hs), fun i hi hs => ?_,
    fun j hj hgone => hsilent j.name (.inr ⟨j, hj, rfl, hgone⟩)⟩
  · intro a ha
    exact hdefines.equipped a (happenders ▸ ha)
  · exact happenders ▸ hdefines.grows
  · exact (hdefines.defined i hi hs).frame (hnamed i hi) (happenders ▸ List.prefix_rfl)

/-- A logger that the listener skips is as the new definition says exactly when its appenders come
out the same. -/
theorem Kept.skipped_iff (h : g.Kept) {m : LoggerManager} {i j : LogDefine}
    (hfind : g.defines.find i = some j) (heq : i.eq j = true)
    (hlogger : m.loggers i.name = g.manager.loggers i.name)
    (hgrows : g.manager.appenders <+: m.appenders) :
    m.Shows i (i.given (g.manager.logger i.name).formatter) ↔
      i.appenders.map (·.made (g.manager.logger i.name).formatter) =
        j.appenders.map (·.made (g.manager.logger i.name).formatter) := by
  obtain ⟨hname, hlevel, hformatter⟩ := LogDefine.eq_iff.mp heq
  obtain ⟨l, hl, hlevel', hshown, hmap⟩ :=
    (h.applied j (LogDefines.mem_of_find hfind).1).frame (hname ▸ hlogger) hgrows
  have hself : g.manager.logger i.name = l := by
    rw [LoggerManager.logger, ← hlogger, hname, hl]
    rfl
  have hgiven : i.given l.formatter = l.formatter := by
    rw [← hname, hself] at hshown
    rw [LogDefine.given, hformatter]
    exact hshown.symm
  have hsome : ∀ ds : List LogAppenderDefine, ds.map (fun a => some (a.made l.formatter)) =
      (ds.map (·.made l.formatter)).map some := by
    simp
  rw [← hname, hself, LogDefine.given, ← hformatter, ← LogDefine.given, hgiven, hsome] at hmap
  rw [hself, hgiven]
  constructor
  · rintro ⟨l', hl', -, -, hmap'⟩
    rw [hname, hl] at hl'
    cases hl'
    rw [hmap, hsome] at hmap'
    exact (List.map_injective_iff.mpr (fun _ _ => Option.some.inj) hmap').symm
  · intro hsame
    refine ⟨l, hname ▸ hl, hlevel'.trans hlevel.symm, rfl, ?_⟩
    rw [hmap, hsome, hsame]

/-- The root takes an event exactly when a call of `log` on it finds no null pointer. -/
theorem answers_iff (h : g.manager.Rooted) (level : LogLevel) :
    (∃ out, g.manager.log 3 (some "root") level = some (.ok out)) ↔ g.Answers level := by
  obtain ⟨root, hroot⟩ := Option.isSome_iff_exists.mp h.root
  rw [h.log_eq hroot hroot 0, Answers, hroot]
  by_cases hquiet : level.value < root.level.value
  · simp [hquiet]
  · by_cases hempty : root.appenders = [] <;> simp [hquiet, hempty]

/-- A change is put into effect exactly when it is spared. -/
theorem Kept.setValue_iff (h : g.Kept) (hd : e.daemon = false) (hv : ∀ i ∈ v.toList, i.Valid e) :
    (∃ g', g.setValue e v = some g' ∧ Configured g v g') ↔ g.Spared v := by
  rw [LogSystem.setValue, Spared]
  by_cases heq : v.eq g.defines
  · rw [if_pos heq, if_pos heq]
    constructor
    · rintro ⟨g', hg', hconfigured⟩
      cases hg'
      exact hconfigured.stored.symm
    · rintro rfl
      refine ⟨g, rfl, rfl, h.applied, fun j hj hgone => ?_⟩
      have hfound := LogDefines.find_isSome_of_mem hj (rfl : j.name = j.name)
      rw [hgone] at hfound
      cases hfound
  · rw [if_neg heq, if_neg heq, ← answers_iff h.rooted]
    obtain ⟨hequipped, hgrows, hskips, hdefined, hremoved⟩ := h.onChange hd hv
    by_cases hlogs : ∃ out, g.manager.log 3 (some "root") .INFO = some (.ok out)
    · obtain ⟨out, hlog⟩ := hlogs
      rw [hlog]
      constructor
      · rintro ⟨g', hg', hconfigured⟩
        cases hg'
        refine ⟨⟨out, rfl⟩, fun i hi j hfind hsame => ?_⟩
        exact (h.skipped_iff hfind hsame (hskips i hi ⟨j, hfind, hsame⟩) hgrows).mp
          (hconfigured.applied i hi)
      · rintro ⟨-, hsame⟩
        refine ⟨_, rfl, rfl, fun i hi => ?_, hremoved⟩
        by_cases hskip : LoggerManager.Skipped g.defines i
        · obtain ⟨j, hfind, hij⟩ := hskip
          exact (h.skipped_iff hfind hij (hskips i hi ⟨j, hfind, hij⟩) hgrows).mpr (hsame i hi j hfind hij)
        · exact hdefined i hi hskip
    · refine iff_of_false ?_ fun hspared => hlogs hspared.1
      rintro ⟨g', hg', -⟩
      split at hg'
      · rename_i out hlog
        exact hlogs ⟨out, hlog⟩
      · cases hg'

theorem Kept.equipped_setValue (h : g.Kept) (hd : e.daemon = false) (hv : ∀ i ∈ v.toList, i.Valid e)
    (hg' : g.setValue e v = some g') : g'.manager.Equipped := by
  rw [LogSystem.setValue] at hg'
  split at hg'
  · cases hg'
    exact h.equipped
  · split at hg'
    · cases hg'
      exact (h.onChange hd hv).1
    · cases hg'

/-- The calls that configure loggers, with changes that are spared. -/
def Allows (e : LogContext) (g : LogSystem) : LogAction → Prop
  | .getLogger _ => True
  | .setValue v => (∀ i ∈ v.toList, i.Valid e) ∧ g.Spared v
  | _ => False

theorem Kept.getLogger (h : g.Kept) (name : String) :
    ({ g with manager := g.manager.getLogger name } : LogSystem).Kept := by
  have hloggers : ∀ i ∈ g.defines.toList,
      (g.manager.getLogger name).loggers i.name = g.manager.loggers i.name := by
    intro i hi
    obtain ⟨l, hl, -⟩ := h.applied i hi
    rw [LoggerManager.loggers_getLogger]
    split
    · rename_i hname
      rw [LoggerManager.logger, ← hname, hl]
      rfl
    · rfl
  have happenders : (g.manager.getLogger name).appenders = g.manager.appenders := by
    rw [LoggerManager.getLogger]
    split <;> rfl
  refine ⟨h.rooted.getLogger name, fun a ha => h.equipped a (happenders ▸ ha), fun i hi => ?_⟩
  have hshows := (h.applied i hi).frame (hloggers i hi) (happenders ▸ List.prefix_rfl)
  rwa [LoggerManager.logger, ← hloggers i hi, ← LoggerManager.logger] at hshows

theorem Kept.step (h : g.Kept) (hd : e.daemon = false) (hs : Step e g a g') (ha : g.Allows e a) :
    g'.Kept := by
  have hrooted := hs.rooted h.rooted
  cases hs with
  | getLogger name => exact h.getLogger name
  | @setValue _ v hg' =>
    obtain ⟨hv, hspared⟩ := ha
    obtain ⟨g'', hg'', hconfigured⟩ := (h.setValue_iff hd hv).mpr hspared
    rw [hg'] at hg''
    cases hg''
    refine ⟨hrooted, h.equipped_setValue hd hv hg', fun i hi => ?_⟩
    rw [hconfigured.stored] at hi
    obtain ⟨l, hl, hlevel, hformatter, hmap⟩ := hconfigured.applied i hi
    have hself : g'.manager.logger i.name = l := by
      rw [LoggerManager.logger, hl]
      rfl
    rw [hself, hformatter, LogDefine.given_given]
    exact ⟨l, hl, hlevel, hformatter, hmap⟩
  | _ => exact absurd ha id

/-- A definition of a logger with some appenders. -/
def systemDefine (appenders : List LogAppenderDefine) : LogDefine := ⟨"system", .INFO, "", appenders⟩

def stdoutDefine : LogAppenderDefine := ⟨.StdoutLogAppender, .DEBUG, "", ""⟩

theorem valid_plain (i : LogDefine) : i.Valid plainContext := ⟨fun _ => rfl, fun _ _ _ => rfl⟩

end LogSystem
end Flz
