import Flz.Lib.Runs
import Flz.MySQL.Transaction

/-! # What a transaction says of its end

The answers of `commit` and `rollback` of `db/mysql.cc` beside what the server has accepted.
-/
namespace Flz
open Lib

namespace MySQLTransaction

/-- The server has accepted a command for this transaction. -/
def Accepted (t : MySQLTransaction) (c : Command) : Prop := (c, 0) ∈ t.sent

instance (t : MySQLTransaction) (c : Command) : Decidable (t.Accepted c) :=
  inferInstanceAs (Decidable ((c, 0) ∈ t.sent))

/-- A call answers what is true, and sends nothing once the transaction has ended. -/
structure Truthful (t : MySQLTransaction) (c : Call) : Prop where
  commit : ∀ rt, c = .commit rt → (t.commit rt).1 = true → (t.commit rt).2.Accepted .COMMIT
  rollback : ∀ rt, c = .rollback rt → (t.rollback rt).1 = true → (t.rollback rt).2.Accepted .ROLLBACK
  silent : t.Accepted .COMMIT ∨ t.Accepted .ROLLBACK → (t.call c).sent = t.sent

/-- What has become of a transaction, and whether something failed in it: `left` where a text of the caller
has ended it behind the back of the object. -/
inductive Status
  | opened (failed : Bool)
  | committed
  | rolledBack (failed : Bool)
  | left (failed : Bool)
  deriving DecidableEq, Repr

namespace Status

def step : Status → Call → Status
  | opened failed, .execute c rt => if rt = 0 ∧ c.ends then left failed else opened (failed || rt != 0)
  | opened failed, .commit rt => if failed then opened failed else if rt = 0 then committed else opened true
  | opened failed, .rollback rt => if rt = 0 then rolledBack failed else opened true
  | s, _ => s

def after (calls : List Call) : Status := calls.foldl step (opened false)

/-- A commit does not follow a rollback of what did not fail, nor a rollback a commit; behind a text that has
ended the transaction only a commit of what failed follows. -/
def Allows : Status → Call → Bool
  | rolledBack failed, .commit _ => failed
  | committed, .rollback _ => false
  | left failed, .commit _ => failed
  | left _, _ => false
  | _, _ => true

end Status

variable {t : MySQLTransaction} {s : Status} {c : Call} {d : Command} {rt : ℤ} {failed : Bool}

/-- The object and the server are as the status says. -/
def Reflects (t : MySQLTransaction) : Status → Prop
  | .opened failed => t.isFinished = false ∧ t.hasError = failed ∧ ¬ t.Accepted .COMMIT ∧ ¬ t.Accepted .ROLLBACK
  | .committed => t.isFinished = true ∧ t.hasError = false ∧ t.Accepted .COMMIT ∧ ¬ t.Accepted .ROLLBACK
  | .rolledBack failed => t.isFinished = true ∧ t.hasError = failed ∧ ¬ t.Accepted .COMMIT ∧ t.Accepted .ROLLBACK
  | .left failed => t.isFinished = false ∧ t.hasError = failed ∧ (t.Accepted .COMMIT ∨ t.Accepted .ROLLBACK)

theorem accepted_append {t' : MySQLTransaction} (h : t'.sent = t.sent ++ [(d, rt)]) (c : Command) :
    t'.Accepted c ↔ t.Accepted c ∨ c = d ∧ rt = 0 := by
  rw [Accepted, h, Accepted, List.mem_append, List.mem_singleton, Prod.mk.injEq, eq_comm (b := rt)]

theorem reflects_create {autoCommit : Bool} (h : Create autoCommit rt = some t) : t.Reflects (.opened false) := by
  obtain ⟨hshape, -, hfinished, herror⟩ := Shape.create h
  cases hshape with
  | finished body c hplain hdone hends hsent hclean =>
    rw [hfinished] at hdone
    cases hdone
  | opened body hplain _ hsent _ =>
    have hnot : ∀ c : Command, c.ends = true → ¬ t.Accepted c := by
      intro c hc hmem
      rw [Accepted, hsent] at hmem
      rcases List.mem_cons.mp hmem with heq | hmem
      · cases heq
        cases hc
      · have hnever := (not_ends (hplain _ hmem)).1
        rw [hc] at hnever
        cases hnever
    exact ⟨hfinished, herror, hnot .COMMIT rfl, hnot .ROLLBACK rfl⟩

/-! ## The answers -/

theorem commit_answer (h : t.isFinished = true ∨ t.hasError = true) (rt : ℤ) :
    (t.commit rt).1 = !t.hasError := by
  rw [commit, if_pos (Bool.or_eq_true_iff.mpr h)]

theorem commit_answer_open (h : t.isFinished = false) (herr : t.hasError = false) (rt : ℤ) :
    (t.commit rt).1 = (rt == 0) := by
  rw [commit, h, herr, execute_open h]
  rfl

theorem rollback_answer (h : t.isFinished = true) (rt : ℤ) : (t.rollback rt).1 = true := by
  rw [rollback, if_pos h]

theorem rollback_answer_open (h : t.isFinished = false) (rt : ℤ) : (t.rollback rt).1 = (rt == 0) := by
  rw [rollback, h, execute_open h]
  rfl

/-! ## One call -/

/-- Of a transaction that has not ended every call says the truth. -/
theorem truthful_of_opened (h : t.Reflects (.opened failed)) (c : Call) : t.Truthful c := by
  obtain ⟨hfinished, herror, hcommit, hrollback⟩ := h
  refine ⟨?_, ?_, fun hended => absurd hended (not_or.mpr ⟨hcommit, hrollback⟩)⟩
  · rintro rt rfl htrue
    cases hfailed : t.hasError with
    | true =>
      rw [commit_answer (Or.inr hfailed), hfailed] at htrue
      cases htrue
    | false =>
      rw [commit_answer_open hfinished hfailed] at htrue
      rw [commit_open hfinished hfailed, eq_of_beq htrue]
      exact List.mem_append_right _ List.mem_cons_self
  · rintro rt rfl htrue
    rw [rollback_answer_open hfinished] at htrue
    rw [rollback_open hfinished, eq_of_beq htrue]
    exact List.mem_append_right _ List.mem_cons_self

theorem truthful_finished (h : t.isFinished = true) : t.Truthful c ↔
    (∀ rt, c = .commit rt → t.hasError = false → t.Accepted .COMMIT) ∧
      ∀ rt, c = .rollback rt → t.Accepted .ROLLBACK := by
  constructor
  · intro htruthful
    refine ⟨?_, ?_⟩
    · intro rt hc herror
      have haccepted := htruthful.commit rt hc (by rw [commit_answer (Or.inl h), herror]; rfl)
      rwa [commit_finished h] at haccepted
    · intro rt hc
      have haccepted := htruthful.rollback rt hc (rollback_answer h rt)
      rwa [rollback_finished h] at haccepted
  · rintro ⟨hcommit, hrollback⟩
    refine ⟨?_, ?_, fun _ => by rw [call_finished h]⟩
    · intro rt hc htrue
      rw [commit_answer (Or.inl h), Bool.not_eq_true'] at htrue
      rw [commit_finished h]
      exact hcommit rt hc htrue
    · intro rt hc _
      rw [rollback_finished h]
      exact hrollback rt hc

/-- Behind a text that has ended the transaction every call sends, but a commit of what failed. -/
theorem truthful_left (h : t.Reflects (.left failed)) : t.Truthful c ↔ (∃ rt, c = .commit rt) ∧ failed = true := by
  obtain ⟨hfinished, rfl, hended⟩ := h
  constructor
  · intro htruthful
    have hsilent := htruthful.silent hended
    cases c with
    | execute d rt =>
      rw [call, execute_open hfinished] at hsilent
      simp at hsilent
    | rollback rt =>
      rw [call, rollback_open hfinished] at hsilent
      simp at hsilent
    | commit rt =>
      refine ⟨⟨rt, rfl⟩, ?_⟩
      by_contra hfailed
      rw [call, commit_open hfinished (Bool.eq_false_iff.mpr hfailed)] at hsilent
      simp at hsilent
  · rintro ⟨⟨rt, rfl⟩, hfailed⟩
    refine ⟨?_, ?_, fun _ => congrArg sent (commit_error hfailed rt)⟩
    · intro rt _ htrue
      rw [commit_answer (Or.inr hfailed), hfailed] at htrue
      cases htrue
    · intro rt hc
      cases hc

theorem truthful_iff_allows (h : t.Reflects s) (c : Call) : t.Truthful c ↔ s.Allows c = true := by
  cases s with
  | opened failed => exact iff_of_true (truthful_of_opened h c) (by cases c <;> rfl)
  | committed =>
    obtain ⟨hfinished, herror, hcommit, hrollback⟩ := h
    rw [truthful_finished hfinished]
    cases c <;> simp [Status.Allows, hcommit, hrollback]
  | rolledBack failed =>
    obtain ⟨hfinished, rfl, hcommit, hrollback⟩ := h
    rw [truthful_finished hfinished]
    cases c <;> simp [Status.Allows, hcommit, hrollback]
  | left failed =>
    rw [truthful_left h]
    cases c <;> simp [Status.Allows]

theorem not_accepted_append {t' : MySQLTransaction} (hsent : t'.sent = t.sent ++ [(d, rt)]) {c : Command}
    (h : ¬ t.Accepted c) (hne : ¬ (c = d ∧ rt = 0)) : ¬ t'.Accepted c := by
  rw [accepted_append hsent]
  exact not_or.mpr ⟨h, hne⟩

theorem accepted_last {t' : MySQLTransaction} (hsent : t'.sent = t.sent ++ [(d, 0)]) : t'.Accepted d :=
  (accepted_append hsent d).mpr (Or.inr ⟨rfl, rfl⟩)

theorem reflects_execute (h : t.Reflects (.opened failed)) (d : Command) (rt : ℤ) :
    (t.call (.execute d rt)).Reflects ((Status.opened failed).step (.execute d rt)) := by
  obtain ⟨hfinished, rfl, hcommit, hrollback⟩ := h
  have hcall : t.call (.execute d rt) =
      { t with hasError := t.hasError || rt != 0, sent := t.sent ++ [(d, rt)] } :=
    congrArg Prod.snd (execute_open hfinished d rt)
  rw [hcall, Status.step]
  split
  · rename_i hends
    obtain ⟨rfl, hends⟩ := hends
    refine ⟨hfinished, by simp, ?_⟩
    cases d with
    | COMMIT => exact Or.inl (accepted_last rfl)
    | ROLLBACK => exact Or.inr (accepted_last rfl)
    | BEGIN => cases hends
    | statement sql => cases hends
  · rename_i hends
    refine ⟨hfinished, rfl, not_accepted_append rfl hcommit ?_, not_accepted_append rfl hrollback ?_⟩
    · rintro ⟨rfl, hrt⟩
      exact hends ⟨hrt, rfl⟩
    · rintro ⟨rfl, hrt⟩
      exact hends ⟨hrt, rfl⟩

theorem reflects_commit (h : t.Reflects (.opened failed)) (rt : ℤ) :
    (t.call (.commit rt)).Reflects ((Status.opened failed).step (.commit rt)) := by
  obtain ⟨hfinished, herror, hcommit, hrollback⟩ := h
  cases failed with
  | true =>
    rw [call, commit_error herror]
    exact ⟨hfinished, herror, hcommit, hrollback⟩
  | false =>
    rw [call, commit_open hfinished herror]
    by_cases hrt : rt = 0
    · subst hrt
      exact ⟨rfl, rfl, accepted_last rfl, not_accepted_append rfl hrollback (by simp)⟩
    · rw [Status.step, if_neg Bool.false_ne_true, if_neg hrt]
      refine ⟨by simpa using hrt, by simpa using hrt, not_accepted_append rfl hcommit ?_,
        not_accepted_append rfl hrollback ?_⟩
      · exact fun hsame => hrt hsame.2
      · exact fun hsame => hrt hsame.2

theorem reflects_rollback (h : t.Reflects (.opened failed)) (rt : ℤ) :
    (t.call (.rollback rt)).Reflects ((Status.opened failed).step (.rollback rt)) := by
  obtain ⟨hfinished, rfl, hcommit, hrollback⟩ := h
  rw [call, rollback_open hfinished]
  by_cases hrt : rt = 0
  · subst hrt
    exact ⟨rfl, by simp, not_accepted_append rfl hcommit (by simp), accepted_last rfl⟩
  · rw [Status.step, if_neg hrt]
    refine ⟨by simpa using hrt, by simp [hrt], not_accepted_append rfl hcommit ?_,
      not_accepted_append rfl hrollback ?_⟩
    · exact fun hsame => hrt hsame.2
    · exact fun hsame => hrt hsame.2

theorem reflects_step (h : t.Reflects s) (hallows : s.Allows c = true) : (t.call c).Reflects (s.step c) := by
  cases s with
  | committed =>
    rw [call_finished h.1]
    exact h
  | rolledBack failed =>
    rw [call_finished h.1]
    exact h
  | left failed =>
    cases c with
    | execute d rt => cases hallows
    | rollback rt => cases hallows
    | commit rt =>
      rw [call, commit_error (h.2.1.trans hallows)]
      exact h
  | opened failed =>
    cases c with
    | execute d rt => exact reflects_execute h d rt
    | commit rt => exact reflects_commit h rt
    | rollback rt => exact reflects_rollback h rt

/-- From `BEGIN` on all answers are true exactly when no call claims another end than the first, or goes on
behind it. -/
theorem answers_truthful_iff {autoCommit : Bool} (h : Create autoCommit rt = some t) (calls : List Call) :
    AtEach (fun before c => (before.foldl call t).Truthful c) calls ↔
      AtEach (fun before c => (Status.after before).Allows c = true) calls := by
  refine atEach_congr (I := fun before => (before.foldl call t).Reflects (Status.after before)) ?_ ?_ ?_ calls
  · exact reflects_create h
  · intro before c hbefore hallows
    rw [Status.after, List.foldl_append, List.foldl_append]
    exact reflects_step hbefore hallows
  · intro before c hbefore
    exact truthful_iff_allows hbefore c

/-- A commit that is repeated, and a rollback of what failed that a commit follows. -/
theorem answers_truthful_iff_repeated :
    AtEach (fun before c => (before.foldl call ⟨true, false, false, [(.BEGIN, 0)]⟩).Truthful c)
        [.execute (.statement "INSERT") 0, .commit 0, .commit 0] ∧
      AtEach (fun before c => (before.foldl call ⟨true, false, false, [(.BEGIN, 0)]⟩).Truthful c)
        [.execute (.statement "INSERT") 1062, .rollback 0, .commit 0] := by
  have hcreate : Create true 0 = some ⟨true, false, false, [(.BEGIN, 0)]⟩ := rfl
  exact ⟨(answers_truthful_iff hcreate _).mpr (by decide), (answers_truthful_iff hcreate _).mpr (by decide)⟩

/-- `commit` answers that it was done where the changes have been rolled back. -/
theorem rolled_back_committed : ¬ ∀ (autoCommit : Bool) (rt : ℤ) (t : MySQLTransaction),
    Create autoCommit rt = some t → ∀ calls : List Call,
      AtEach (fun before c => (before.foldl call t).Truthful c) calls := by
  intro hall
  have htruthful := hall true 0 _ rfl [.execute (.statement "INSERT") 0, .rollback 0, .commit 0]
    [.execute (.statement "INSERT") 0, .rollback 0] (.commit 0) (List.prefix_refl _)
  exact absurd (htruthful.commit 0 rfl (by decide)) (by decide)

end MySQLTransaction
end Flz
