import Flz.Log.Logger

/-! # Formatters of appenders

The formatters alone of `Logger` and `LogAppender` in `src/log.cc`, as pointers that may be null. A logger or an
appender that is constructed later is there from the beginning with what its constructor gives it.
-/
namespace Flz
open Lib

structure FormattedAppender (F : Type) where
  m_formatter : Option F
  m_hasFormatter : Bool
  deriving DecidableEq, Repr

structure FormattedLogger (A F : Type) where
  m_appenders : List A
  m_formatter : Option F
  deriving DecidableEq, Repr

structure Formatters (L A F : Type) where
  loggers : L → FormattedLogger A F
  appenders : A → FormattedAppender F

inductive FormatterCall (L A F : Type)
  | addAppender (l : L) (appender : A)
  | delAppender (l : L) (appender : A)
  | setFormatter (l : L) (val : Option F)
  /-- With a text, and the formatter that is made of it. -/
  | setPattern (l : L) (new_val : F)
  /-- Of an appender. -/
  | setAppenderFormatter (appender : A) (val : Option F)
  deriving DecidableEq, Repr

namespace FormattedAppender
variable {F : Type}

def setFormatter (_ : FormattedAppender F) (val : Option F) : FormattedAppender F :=
  { m_formatter := val, m_hasFormatter := val.isSome }

/-- With the formatter of a logger, unless it has one. -/
def inherit (a : FormattedAppender F) (val : Option F) : FormattedAppender F :=
  if a.m_hasFormatter then a else a.setFormatter val

end FormattedAppender

namespace Formatters
variable {L A F : Type} [DecidableEq L] [DecidableEq A] (isError : F → Bool)

/-- The formatters that the loggers are constructed with. -/
def new (formatter : L → F) : Formatters L A F where
  loggers l := ⟨[], some (formatter l)⟩
  appenders _ := ⟨none, false⟩

def addAppender (g : Formatters L A F) (l : L) (appender : A) : Formatters L A F where
  loggers := Function.update g.loggers l ⟨(g.loggers l).m_appenders ++ [appender], (g.loggers l).m_formatter⟩
  appenders := Function.update g.appenders appender ((g.appenders appender).inherit (g.loggers l).m_formatter)

def delAppender (g : Formatters L A F) (l : L) (appender : A) : Formatters L A F :=
  { g with
    loggers := Function.update g.loggers l ⟨(g.loggers l).m_appenders.erase appender, (g.loggers l).m_formatter⟩ }

def setFormatter (g : Formatters L A F) (l : L) (val : Option F) : Formatters L A F where
  loggers := Function.update g.loggers l ⟨(g.loggers l).m_appenders, val⟩
  appenders := (g.loggers l).m_appenders.foldl (fun as i => Function.update as i ((as i).inherit val)) g.appenders

def setPattern (g : Formatters L A F) (l : L) (new_val : F) : Formatters L A F :=
  if isError new_val then g else g.setFormatter l (some new_val)

def setAppenderFormatter (g : Formatters L A F) (appender : A) (val : Option F) : Formatters L A F :=
  { g with appenders := Function.update g.appenders appender ((g.appenders appender).setFormatter val) }

def call (g : Formatters L A F) : FormatterCall L A F → Formatters L A F
  | .addAppender l appender => g.addAppender l appender
  | .delAppender l appender => g.delAppender l appender
  | .setFormatter l val => g.setFormatter l val
  | .setPattern l new_val => g.setPattern isError l new_val
  | .setAppenderFormatter appender val => g.setAppenderFormatter appender val

end Formatters

section
variable {L A F : Type} {g g' : Formatters L A F} {own : A → Option F}

/-- What was given to the appenders behind a call; a null pointer takes it back. -/
def give [DecidableEq A] (own : A → Option F) : FormatterCall L A F → A → Option F
  | .setAppenderFormatter appender val => Function.update own appender val
  | _ => own

/-- The formatter that each appender was given last. -/
def given [DecidableEq A] (calls : List (FormatterCall L A F)) : A → Option F := calls.foldl give fun _ => none

namespace Formatters

/-- The appender is attached to this logger and to no other. -/
def Alone (g : Formatters L A F) (a : A) (l : L) : Prop :=
  a ∈ (g.loggers l).m_appenders ∧ ∀ l', a ∈ (g.loggers l').m_appenders → l' = l

/-- An appender that was given no formatter has that of its logger, and one that was given one has that one. -/
structure Inherits (g : Formatters L A F) (own : A → Option F) : Prop where
  inherited : ∀ a l, own a = none → g.Alone a l → (g.appenders a).m_formatter = (g.loggers l).m_formatter
  kept : ∀ a f, own a = some f → (g.appenders a).m_formatter = some f

/-- No appender that was given nothing is left with a formatter other than that of its logger. -/
def Allows [DecidableEq A] (isError : F → Bool) (g : Formatters L A F) (own : A → Option F) :
    FormatterCall L A F → Prop
  | .addAppender l a => own a = none → (∀ l', a ∉ (g.loggers l').m_appenders) →
    (g.appenders a).m_formatter = none ∨ (g.appenders a).m_formatter = (g.loggers l).m_formatter
  | .delAppender l a => own a = none → ∀ l', l' ≠ l → a ∈ (g.loggers l').m_appenders →
    (∀ k, a ∈ (g.loggers k).m_appenders → k = l' ∨ k = l) → (g.loggers l).m_appenders.count a ≤ 1 →
      (g.appenders a).m_formatter = (g.loggers l').m_formatter
  | .setFormatter l val => (g.loggers l).m_formatter = none ∨ val = (g.loggers l).m_formatter ∨
    ∀ a, g.Alone a l → own a ≠ none
  | .setPattern l new_val => isError new_val = true ∨ (g.loggers l).m_formatter = none ∨
    some new_val = (g.loggers l).m_formatter ∨ ∀ a, g.Alone a l → own a ≠ none
  | .setAppenderFormatter a val => val = none → ∀ l, g.Alone a l → (g.loggers l).m_formatter = none

/-- The flag says whether there is a formatter, and one that was given is not lost. -/
structure Kept (g : Formatters L A F) (own : A → Option F) : Prop where
  flag : ∀ a, (g.appenders a).m_hasFormatter = (g.appenders a).m_formatter.isSome
  kept : ∀ a f, own a = some f → (g.appenders a).m_formatter = some f

theorem kept_new (formatter : L → F) : (new formatter : Formatters L A F).Kept fun _ => none := ⟨fun _ => rfl, nofun⟩

/-- With what was given kept, only the other appenders matter. -/
theorem Kept.inherits_iff_alone (h : g.Kept own) : g.Inherits own ↔
    ∀ a l, own a = none → g.Alone a l → (g.appenders a).m_formatter = (g.loggers l).m_formatter :=
  ⟨fun h' => h'.inherited, fun h' => ⟨h', h.kept⟩⟩

theorem Kept.inherit_eq (h : g.Kept own) (a : A) (val : Option F) :
    ((g.appenders a).inherit val).m_formatter = (g.appenders a).m_formatter.or val := by
  rw [FormattedAppender.inherit, h.flag a]
  cases hformatter : (g.appenders a).m_formatter with
  | none => simp [FormattedAppender.setFormatter]
  | some f => simp [hformatter]

theorem Kept.inherit_flag (h : g.Kept own) (a : A) (val : Option F) :
    ((g.appenders a).inherit val).m_hasFormatter = ((g.appenders a).inherit val).m_formatter.isSome := by
  rw [FormattedAppender.inherit]
  split
  · exact h.flag a
  · rfl

/-- Appenders that inherit keep what they were given. -/
theorem Kept.inherit (h : g.Kept own)
    (h' : ∀ a, g'.appenders a = g.appenders a ∨ ∃ val, g'.appenders a = (g.appenders a).inherit val) :
    g'.Kept own where
  flag a := by
    rcases h' a with ha | ⟨val, ha⟩
    · rw [ha, h.flag a]
    · rw [ha, h.inherit_flag a val]
  kept a f hf := by
    rcases h' a with ha | ⟨val, ha⟩
    · rw [ha, h.kept a f hf]
    · rw [ha, h.inherit_eq a val, h.kept a f hf]
      rfl

theorem inherit_inherit (a : FormattedAppender F) (val : Option F) : (a.inherit val).inherit val = a.inherit val := by
  cases h : a.m_hasFormatter with
  | true => simp [FormattedAppender.inherit, h]
  | false => cases val <;> simp [FormattedAppender.inherit, FormattedAppender.setFormatter, h]

/-- Each of some appenders inherits, however often it is among them. -/
theorem foldl_inherit [DecidableEq A] (as : A → FormattedAppender F) (ids : List A) (val : Option F) (b : A) :
    (ids.foldl (fun as i => Function.update as i ((as i).inherit val)) as) b =
      if b ∈ ids then (as b).inherit val else as b := by
  induction ids generalizing as with
  | nil => simp
  | cons i ids ih =>
    rw [List.foldl_cons, ih]
    by_cases hb : b = i
    · subst hb
      simp [inherit_inherit]
    · simp [hb]

end Formatters
end

namespace Formatters
variable {L A F : Type} [DecidableEq L] [DecidableEq A] {isError : F → Bool} {g : Formatters L A F}
  {own : A → Option F} {a b : A} {l m : L} {val : Option F}

/-! ## What a call does -/

theorem loggers_addAppender (g : Formatters L A F) (l m : L) (a : A) : (g.addAppender l a).loggers m =
    if m = l then ⟨(g.loggers l).m_appenders ++ [a], (g.loggers l).m_formatter⟩ else g.loggers m :=
  Function.update_apply ..

theorem loggers_delAppender (g : Formatters L A F) (l m : L) (a : A) : (g.delAppender l a).loggers m =
    if m = l then ⟨(g.loggers l).m_appenders.erase a, (g.loggers l).m_formatter⟩ else g.loggers m :=
  Function.update_apply ..

theorem loggers_setFormatter (g : Formatters L A F) (l m : L) (val : Option F) : (g.setFormatter l val).loggers m =
    if m = l then ⟨(g.loggers l).m_appenders, val⟩ else g.loggers m :=
  Function.update_apply ..

theorem appenders_addAppender (g : Formatters L A F) (l : L) (a b : A) : (g.addAppender l a).appenders b =
    if b = a then (g.appenders a).inherit (g.loggers l).m_formatter else g.appenders b :=
  Function.update_apply ..

theorem appenders_setFormatter (g : Formatters L A F) (l : L) (val : Option F) (b : A) :
    (g.setFormatter l val).appenders b =
      if b ∈ (g.loggers l).m_appenders then (g.appenders b).inherit val else g.appenders b :=
  foldl_inherit ..

omit [DecidableEq L] in
theorem appenders_setAppenderFormatter (g : Formatters L A F) (a b : A) (val : Option F) :
    (g.setAppenderFormatter a val).appenders b =
      if b = a then ⟨val, val.isSome⟩ else g.appenders b :=
  Function.update_apply ..

theorem Kept.setFormatter (h : g.Kept own) (l : L) (val : Option F) : (g.setFormatter l val).Kept own := by
  refine h.inherit fun a => ?_
  rw [appenders_setFormatter]
  split
  · exact .inr ⟨val, rfl⟩
  · exact .inl rfl

theorem Kept.addAppender (h : g.Kept own) (l : L) (appender : A) : (g.addAppender l appender).Kept own := by
  refine h.inherit fun a => ?_
  rw [appenders_addAppender]
  split
  · rename_i ha
    exact .inr ⟨_, by rw [ha]⟩
  · exact .inl rfl

theorem Kept.delAppender (h : g.Kept own) (l : L) (appender : A) : (g.delAppender l appender).Kept own :=
  ⟨h.flag, h.kept⟩

omit [DecidableEq L] in
theorem Kept.setAppenderFormatter (h : g.Kept own) (appender : A) (val : Option F) :
    (g.setAppenderFormatter appender val).Kept (Function.update own appender val) := by
  refine ⟨fun a => ?_, fun a f hf => ?_⟩
  · rw [appenders_setAppenderFormatter]
    split
    · rfl
    · exact h.flag a
  · rw [Function.update_apply] at hf
    rw [appenders_setAppenderFormatter]
    split at hf
    · rename_i ha
      rw [if_pos ha, hf]
    · rename_i ha
      rw [if_neg ha]
      exact h.kept a f hf

theorem Kept.call (h : g.Kept own) (c : FormatterCall L A F) : (g.call isError c).Kept (give own c) := by
  cases c with
  | addAppender l appender => exact h.addAppender l appender
  | delAppender l appender => exact h.delAppender l appender
  | setFormatter l val => exact h.setFormatter l val
  | setPattern l new_val =>
    rw [Formatters.call, setPattern]
    split
    · exact h
    · exact h.setFormatter l (some new_val)
  | setAppenderFormatter appender val => exact h.setAppenderFormatter appender val

/-! ## Which calls leave every appender with the right formatter -/

theorem addAppender_iff (hkept : g.Kept own) (h : g.Inherits own) :
    (g.addAppender l a).Inherits own ↔ Allows isError g own (.addAppender l a) := by
  have hmem : ∀ m b, b ∈ ((g.addAppender l a).loggers m).m_appenders ↔
      b ∈ (g.loggers m).m_appenders ∨ m = l ∧ b = a := by
    intro m b
    rw [loggers_addAppender]
    by_cases hm : m = l <;> simp [hm]
  have hformatter : ∀ m, ((g.addAppender l a).loggers m).m_formatter = (g.loggers m).m_formatter := by
    intro m
    rw [loggers_addAppender]
    by_cases hm : m = l <;> simp [hm]
  have hself : ((g.addAppender l a).appenders a).m_formatter =
      (g.appenders a).m_formatter.or (g.loggers l).m_formatter := by
    rw [appenders_addAppender, if_pos rfl, hkept.inherit_eq]
  rw [(hkept.addAppender l a).inherits_iff_alone]
  simp only [Alone, hmem, hformatter]
  constructor
  · intro h' hown hfree
    have hfound := h' a l hown ⟨.inr ⟨rfl, rfl⟩, fun m hm => hm.elim (fun hm => absurd hm (hfree m)) And.left⟩
    rw [hself] at hfound
    cases hf : (g.appenders a).m_formatter with
    | none => exact .inl rfl
    | some f =>
      rw [hf, Option.some_or] at hfound
      exact .inr hfound
  · rintro hallow b m hown ⟨hb, halone⟩
    by_cases hba : b = a
    · subst hba
      obtain rfl := halone l (.inr ⟨rfl, rfl⟩)
      rw [hself]
      by_cases hfree : ∀ l', b ∉ (g.loggers l').m_appenders
      · rcases hallow hown hfree with hf | hf
        · rw [hf, Option.none_or]
        · rw [hf, Option.or_self]
      · obtain ⟨k, hk⟩ := not_forall_not.mp hfree
        obtain rfl := halone k (.inl hk)
        rw [h.inherited b k hown ⟨hk, fun k' hk' => halone k' (.inl hk')⟩, Option.or_self]
    · rw [appenders_addAppender, if_neg hba]
      refine h.inherited b m hown ⟨hb.resolve_right fun hb => hba hb.2, fun k hk => halone k (.inl hk)⟩

theorem delAppender_iff (hkept : g.Kept own) (h : g.Inherits own) :
    (g.delAppender l a).Inherits own ↔ Allows isError g own (.delAppender l a) := by
  have hother : ∀ m b, b ≠ a ∨ m ≠ l →
      (b ∈ ((g.delAppender l a).loggers m).m_appenders ↔ b ∈ (g.loggers m).m_appenders) := by
    intro m b hne
    rw [loggers_delAppender]
    by_cases hm : m = l
    · rw [if_pos hm, hm]
      exact List.mem_erase_of_ne (hne.resolve_right fun hml => hml hm)
    · rw [if_neg hm]
  have hsame : a ∈ ((g.delAppender l a).loggers l).m_appenders ↔ 1 < (g.loggers l).m_appenders.count a := by
    rw [loggers_delAppender, if_pos rfl, ← List.count_pos_iff, List.count_erase_self]
    omega
  have hformatter : ∀ m, ((g.delAppender l a).loggers m).m_formatter = (g.loggers m).m_formatter := by
    intro m
    rw [loggers_delAppender]
    by_cases hm : m = l <;> simp [hm]
  rw [(hkept.delAppender l a).inherits_iff_alone]
  simp only [Alone, hformatter]
  constructor
  · intro h' hown m hm hmem honly hcount
    refine h' a m hown ⟨(hother m a (.inr hm)).mpr hmem, fun k hk => ?_⟩
    by_cases hkl : k = l
    · subst hkl
      exact absurd (hsame.mp hk) (Nat.not_lt.mpr hcount)
    · exact (honly k ((hother k a (.inr hkl)).mp hk)).resolve_right hkl
  · rintro hallow b m hown ⟨hb, halone⟩
    by_cases hba : b = a
    · subst hba
      by_cases hm : m = l
      · subst hm
        have hin : b ∈ (g.loggers m).m_appenders := List.count_pos_iff.mp (Nat.lt_of_succ_lt (hsame.mp hb))
        refine h.inherited b m hown ⟨hin, fun k hk => ?_⟩
        by_contra hkm
        exact hkm (halone k ((hother k b (.inr hkm)).mpr hk))
      · refine hallow hown m hm ((hother m b (.inr hm)).mp hb) (fun k hk => ?_) ?_
        · by_cases hkl : k = l
          · exact .inr hkl
          · exact .inl (halone k ((hother k b (.inr hkl)).mpr hk))
        · by_contra hcount
          exact hm (halone l (hsame.mpr (Nat.lt_of_not_le hcount))).symm
    · refine h.inherited b m hown ⟨(hother m b (.inl hba)).mp hb, fun k hk => ?_⟩
      exact halone k ((hother k b (.inl hba)).mpr hk)

theorem setFormatter_iff (hkept : g.Kept own) (h : g.Inherits own) :
    (g.setFormatter l val).Inherits own ↔ Allows isError g own (.setFormatter l val) := by
  have hmem : ∀ m, ((g.setFormatter l val).loggers m).m_appenders = (g.loggers m).m_appenders := by
    intro m
    rw [loggers_setFormatter]
    by_cases hm : m = l <;> simp [hm]
  have hself : ((g.setFormatter l val).loggers l).m_formatter = val := by rw [loggers_setFormatter, if_pos rfl]
  rw [(hkept.setFormatter l val).inherits_iff_alone]
  simp only [Alone, hmem]
  constructor
  · intro h'
    by_contra hnot
    simp only [Allows, not_or, not_forall, not_not] at hnot
    obtain ⟨hsome, hval, a, halone, hown⟩ := hnot
    have hbefore := h.inherited a l hown halone
    have hafter := h' a l hown halone
    rw [appenders_setFormatter, if_pos halone.1, hkept.inherit_eq, hbefore, hself] at hafter
    obtain ⟨f, hf⟩ := Option.ne_none_iff_exists'.mp hsome
    rw [hf, Option.some_or] at hafter
    exact hval (hafter.symm.trans hf.symm)
  · rintro hallow b m hown ⟨hb, halone⟩
    have hbefore := h.inherited b m hown ⟨hb, halone⟩
    by_cases hm : m = l
    · subst hm
      rw [appenders_setFormatter, if_pos hb, hkept.inherit_eq, hbefore, hself]
      rcases hallow with hnone | hval | hall
      · rw [hnone, Option.none_or]
      · rw [← hval, Option.or_self]
      · exact absurd hown (hall b ⟨hb, halone⟩)
    · have hout : b ∉ (g.loggers l).m_appenders := fun hl => hm (halone l hl).symm
      rw [appenders_setFormatter, if_neg hout, loggers_setFormatter, if_neg hm, hbefore]

omit [DecidableEq L] in
theorem setAppenderFormatter_iff (hkept : g.Kept own) (h : g.Inherits own) :
    (g.setAppenderFormatter a val).Inherits (Function.update own a val) ↔
      Allows isError g own (.setAppenderFormatter a val) := by
  have hloggers : (g.setAppenderFormatter a val).loggers = g.loggers := rfl
  rw [(hkept.setAppenderFormatter a val).inherits_iff_alone]
  simp only [Alone, hloggers, appenders_setAppenderFormatter, Function.update_apply]
  constructor
  · intro h' hval m hm
    have hfound := h' a m (by rw [if_pos rfl, hval]) hm
    rw [if_pos rfl, hval] at hfound
    exact hfound.symm
  · intro hallow b m hown hb
    by_cases hba : b = a
    · subst hba
      rw [if_pos rfl] at hown
      rw [if_pos rfl, hallow hown m hb, hown]
    · rw [if_neg hba] at hown
      rw [if_neg hba]
      exact h.inherited b m hown hb

/-- One call keeps the formatters right exactly when it is allowed. -/
theorem Kept.call_iff (hkept : g.Kept own) (h : g.Inherits own) (c : FormatterCall L A F) :
    (g.call isError c).Inherits (give own c) ↔ Allows isError g own c := by
  cases c with
  | addAppender l a => exact addAppender_iff hkept h
  | delAppender l a => exact delAppender_iff hkept h
  | setFormatter l val => exact setFormatter_iff hkept h
  | setPattern l new_val =>
    have hset : (g.setFormatter l (some new_val)).Inherits own ↔ Allows isError g own (.setFormatter l (some new_val)) :=
      setFormatter_iff hkept h
    by_cases herror : isError new_val = true
    · rw [Formatters.call, setPattern, if_pos herror]
      exact iff_of_true h (.inl herror)
    · rw [Formatters.call, setPattern, if_neg herror, Allows, or_iff_right herror]
      exact hset
  | setAppenderFormatter a val => exact setAppenderFormatter_iff hkept h

/-! ## Runs -/

omit [DecidableEq L] in
theorem given_snoc (calls : List (FormatterCall L A F)) (c : FormatterCall L A F) :
    given (calls ++ [c]) = give (given calls) c := by
  rw [given, List.foldl_append]
  rfl

/-- What is given is not lost in any run. -/
theorem kept_run (isError : F → Bool) (formatter : L → F) (calls : List (FormatterCall L A F)) :
    (calls.foldl (call isError) (new formatter)).Kept (given calls) := by
  induction calls using List.reverseRecOn with
  | nil => exact kept_new formatter
  | append_singleton calls c ih =>
    rw [List.foldl_append, given_snoc]
    exact ih.call c

/-- An appender has its own formatter or that of its logger throughout a run exactly when every call is allowed where
it is made: an inherited formatter sets the flag too, and later ones do not get there. -/
theorem inherits_iff (isError : F → Bool) (formatter : L → F) (calls : List (FormatterCall L A F)) :
    (∀ before, before <+: calls → (before.foldl (call isError) (new formatter)).Inherits (given before)) ↔
      AtEach (fun before c => Allows isError (before.foldl (call isError) (new formatter)) (given before) c) calls := by
  induction calls using List.reverseRecOn with
  | nil =>
    refine iff_of_true (fun before hbefore => ?_) (atEach_nil _)
    obtain rfl := List.prefix_nil.mp hbefore
    exact ⟨nofun, nofun⟩
  | append_singleton calls c ih =>
    rw [atEach_append, ← ih]
    constructor
    · intro h
      have hbefore := fun before hbefore => h before (List.IsPrefix.trans hbefore (List.prefix_append calls [c]))
      have hlast := h (calls ++ [c]) (List.prefix_refl _)
      rw [List.foldl_append, given_snoc] at hlast
      exact ⟨hbefore, ((kept_run isError formatter calls).call_iff (hbefore calls (List.prefix_refl _)) c).mp hlast⟩
    · rintro ⟨hbefore, hallow⟩ before hprefix
      rcases List.prefix_concat_iff.mp hprefix with rfl | hprefix
      · rw [List.foldl_append, given_snoc]
        exact ((kept_run isError formatter calls).call_iff (hbefore calls (List.prefix_refl _)) c).mpr hallow
      · exact hbefore before hprefix

/-- An appender that is attached first does not see the formatter that its logger is given then. -/
theorem formatter_not_inherited : ¬ ∀ {L A F : Type} [DecidableEq L] [DecidableEq A] (isError : F → Bool)
    (formatter : L → F) (calls : List (FormatterCall L A F)),
    (calls.foldl (call isError) (new formatter)).Inherits (given calls) := by
  intro h
  have hrun := h (fun _ => false) (fun _ : Unit => 0) [.addAppender () (), .setFormatter () (some 1)]
  have hformatter := hrun.inherited () () rfl ⟨by decide, fun _ _ => rfl⟩
  exact absurd hformatter (by decide)

end Formatters

/-! ## The loggers of the manager -/

namespace LoggerManager

/-- The formatter of an appender, as its pattern. -/
def formatterOf (as : List LogAppender) (i : ℕ) : FormattedAppender String :=
  match as[i]? with
  | none => ⟨none, false⟩
  | some a => ⟨a.formatter, a.hasFormatter⟩

/-- The formatters of the loggers and appenders that there are. -/
def formatters (g : LoggerManager) : Formatters String ℕ String where
  loggers name :=
    match g.loggers name with
    | none => ⟨[], some defaultFormatter⟩
    | some l => ⟨l.appenders, some l.formatter⟩
  appenders := formatterOf g.appenders

section
variable {g : LoggerManager} {name : String} {l : Logger} {i : ℕ} {as : List LogAppender}

theorem formatterOf_inherit (hi : i < as.length) (val : String) : formatterOf (as.modify i (·.inherit val)) =
    Function.update (formatterOf as) i ((formatterOf as i).inherit (some val)) := by
  funext k
  rw [Function.update_apply, formatterOf, List.getElem?_modify]
  by_cases hk : k = i
  · subst hk
    rw [if_pos rfl, formatterOf, List.getElem?_eq_getElem hi]
    cases h : as[k].hasFormatter <;>
      simp [LogAppender.inherit, LogAppender.setFormatter, FormattedAppender.inherit, FormattedAppender.setFormatter, h]
  · rw [if_neg hk, formatterOf]
    cases as[k]? <;> simp [Ne.symm hk]

theorem formatterOf_foldl {ids : List ℕ} (hids : ∀ i ∈ ids, i < as.length) (val : String) :
    formatterOf (ids.foldl (fun as i => as.modify i (·.inherit val)) as) =
      ids.foldl (fun fs i => Function.update fs i ((fs i).inherit (some val))) (formatterOf as) := by
  induction ids generalizing as with
  | nil => rfl
  | cons i ids ih =>
    obtain ⟨hi, hids⟩ := List.forall_mem_cons.mp hids
    rw [List.foldl_cons, List.foldl_cons, ih (by simpa using hids), formatterOf_inherit hi]

/-- The formatters behind a change of one logger. -/
theorem formatters_change (hl : g.loggers name = some l) (f : Logger → Logger) :
    (g.change name f).formatters.loggers =
      Function.update g.formatters.loggers name ⟨(f l).appenders, some (f l).formatter⟩ := by
  funext n
  simp only [formatters, loggers_change, Function.update_apply]
  by_cases hn : n = name
  · rw [if_pos hn, if_pos hn, hl]
    rfl
  · rw [if_neg hn, if_neg hn]

theorem formatters_logger (hl : g.loggers name = some l) :
    g.formatters.loggers name = ⟨l.appenders, some l.formatter⟩ := by
  simp only [formatters, hl]

theorem formatters_addAppender (hl : g.loggers name = some l) (hi : i < g.appenders.length) :
    (g.addAppender name i).formatters = g.formatters.addAppender name i := by
  have hloggers := formatters_change (g := g.inherit [i] l.formatter) hl fun l =>
    { l with appenders := l.appenders ++ [i] }
  have happenders := formatterOf_inherit hi l.formatter
  rw [addAppender, hl, Formatters.addAppender, formatters_logger hl]
  exact congrArg₂ Formatters.mk hloggers happenders

theorem formatters_delAppender (hl : g.loggers name = some l) (i : ℕ) :
    (g.delAppender name i).formatters = g.formatters.delAppender name i := by
  rw [Formatters.delAppender, formatters_logger hl]
  exact congrArg₂ Formatters.mk (formatters_change hl _) rfl

theorem formatters_setFormatter {isError : String → Bool} {val : String} (hl : g.loggers name = some l)
    (happenders : ∀ i ∈ l.appenders, i < g.appenders.length) :
    (g.setFormatter isError name val).formatters = g.formatters.setPattern isError name val := by
  rw [setFormatter, Formatters.setPattern]
  split
  · rfl
  · rw [hl, Formatters.setFormatter, formatters_logger hl]
    exact congrArg₂ Formatters.mk (formatters_change (g := g.inherit l.appenders val) hl _)
      (formatterOf_foldl happenders val)

end
end LoggerManager
end Flz
