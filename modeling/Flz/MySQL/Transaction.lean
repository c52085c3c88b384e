import Mathlib.Data.Int.Notation
import Mathlib.Data.List.Induction
import Mathlib.Data.List.Infix
import Mathlib.Tactic.Cases

/-! # Transactions

`MySQLTransaction` of `db/mysql.cc` over a connection that is given by what it answers: each call
carries what `MySQL::execute` would return for its command.
-/
namespace Flz

/-- A command for the server; the text of other statements does not matter. -/
inductive Command
  | BEGIN | COMMIT | ROLLBACK
  | statement (sql : String)
  deriving DecidableEq, Repr

/-- A command that ends a transaction. -/
def Command.ends : Command → Bool
  | .COMMIT | .ROLLBACK => true
  | _ => false

def Command.plain : Command → Bool
  | .statement _ => true
  | _ => false

/-- `sent` is what the connection has been given, with its answers. -/
structure MySQLTransaction where
  autoCommit : Bool
  isFinished : Bool
  hasError : Bool
  sent : List (Command × ℤ)
  deriving DecidableEq, Repr

namespace MySQLTransaction

/-- `MySQLTransaction(mysql, auto_commit)`. -/
def new (autoCommit : Bool) : MySQLTransaction where
  autoCommit := autoCommit
  isFinished := false
  hasError := false
  sent := []

/-- `execute`, whose connection answers `rt` if it is asked. -/
def execute (t : MySQLTransaction) (c : Command) (rt : ℤ) : ℤ × MySQLTransaction :=
  if t.isFinished then (-1, t)
  else (rt, { t with hasError := t.hasError || rt != 0, sent := t.sent ++ [(c, rt)] })

def begin (t : MySQLTransaction) (rt : ℤ) : Bool × MySQLTransaction :=
  let (rt, t) := t.execute .BEGIN rt
  (rt == 0, t)

def commit (t : MySQLTransaction) (rt : ℤ) : Bool × MySQLTransaction :=
  if t.isFinished || t.hasError then (!t.hasError, t)
  else
    let (rt, t) := t.execute .COMMIT rt
    (rt == 0, if rt = 0 then { t with isFinished := true } else { t with hasError := true })

def rollback (t : MySQLTransaction) (rt : ℤ) : Bool × MySQLTransaction :=
  if t.isFinished then (true, t)
  else
    let (rt, t) := t.execute .ROLLBACK rt
    (rt == 0, if rt = 0 then { t with isFinished := true } else { t with hasError := true })

/-- `Create`; there is no transaction when `BEGIN` fails. -/
def Create (autoCommit : Bool) (rt : ℤ) : Option MySQLTransaction :=
  let (ok, t) := (new autoCommit).begin rt
  if ok then some t else none

/-- `~MySQLTransaction`. -/
def destroy (t : MySQLTransaction) (rt : ℤ) : MySQLTransaction :=
  if t.autoCommit then (t.commit rt).2 else (t.rollback rt).2

/-- The calls on a transaction. -/
inductive Call
  | execute (c : Command) (rt : ℤ)
  | commit (rt : ℤ)
  | rollback (rt : ℤ)
  deriving DecidableEq, Repr

def call (t : MySQLTransaction) : Call → MySQLTransaction
  | .execute c rt => (t.execute c rt).2
  | .commit rt => (t.commit rt).2
  | .rollback rt => (t.rollback rt).2

/-- Some calls, and the destructor. -/
def life (t : MySQLTransaction) (calls : List Call) (rt : ℤ) : MySQLTransaction :=
  (calls.foldl call t).destroy rt

end MySQLTransaction

/-- Whether the server has an open transaction after some commands. -/
def openAfter (sent : List (Command × ℤ)) : Bool :=
  sent.foldl (fun o e => if e.2 ≠ 0 then o else if e.1 = .BEGIN then true else o && !e.1.ends) false

namespace MySQLTransaction
variable {t t' : MySQLTransaction} {calls : List Call} {rt : ℤ}

/-- The commands that end a transaction succeed when they are sent. -/
def EndsSucceed (t : MySQLTransaction) : Prop := ∀ e ∈ t.sent, e.1.ends = true → e.2 = 0

instance (t : MySQLTransaction) : Decidable t.EndsSucceed :=
  inferInstanceAs (Decidable (∀ e ∈ t.sent, e.1.ends = true → e.2 = 0))

/-- The statements of the user do not begin or end a transaction. -/
def Plain (calls : List Call) : Prop := ∀ c rt, .execute c rt ∈ calls → c.plain = true

/-- The transaction has been ended once, by `COMMIT` only if nothing failed. -/
structure Ended (t : MySQLTransaction) : Prop where
  once : (t.sent.filter (fun e => e.1.ends)).length = 1
  clean : ∀ before rt after, t.sent = before ++ (.COMMIT, rt) :: after → ∀ e ∈ before, e.2 = 0
  closed : openAfter t.sent = false

def Call.fails : Call → Bool
  | .execute _ rt => rt != 0
  | _ => false

def Call.isCommit : Call → Bool
  | .commit _ => true
  | _ => false

def Call.isRollback : Call → Bool
  | .rollback _ => true
  | _ => false

/-- The destructor rolls back, or there is a call that does, or no statement fails before the
first call of `commit`. -/
def Resolved (autoCommit : Bool) (calls : List Call) : Prop :=
  autoCommit = false ∨ (∃ c ∈ calls, c.isRollback = true) ∨
    ∀ c ∈ calls.takeWhile (fun c => !c.isCommit), c.fails = false

/-! ## What has been sent -/

theorem call_finished (h : t.isFinished = true) (c : Call) : t.call c = t := by
  cases c with
  | execute c rt => rw [call, execute, if_pos h]
  | commit rt => rw [call, commit, h, Bool.true_or, if_pos rfl]
  | rollback rt => rw [call, rollback, if_pos h]

theorem foldl_finished (h : t.isFinished = true) (calls : List Call) : calls.foldl call t = t := by
  induction calls with
  | nil => rfl
  | cons c calls ih => rw [List.foldl_cons, call_finished h, ih]

theorem execute_open (h : t.isFinished = false) (c : Command) (rt : ℤ) : t.execute c rt =
    (rt, { t with hasError := t.hasError || rt != 0, sent := t.sent ++ [(c, rt)] }) := by
  rw [execute, h]
  rfl

theorem commit_finished (h : t.isFinished = true) (rt : ℤ) : (t.commit rt).2 = t := by
  rw [commit, h, Bool.true_or, if_pos rfl]

theorem commit_error (h : t.hasError = true) (rt : ℤ) : (t.commit rt).2 = t := by
  rw [commit, h, Bool.or_true, if_pos rfl]

theorem commit_open (h : t.isFinished = false) (herr : t.hasError = false) (rt : ℤ) :
    (t.commit rt).2 = { t with
      isFinished := rt == 0, hasError := rt != 0, sent := t.sent ++ [(.COMMIT, rt)] } := by
  rw [commit, h, herr, execute_open h, herr]
  by_cases hrt : rt = 0
  · simp [hrt]
  · simp [hrt, h]

theorem rollback_finished (h : t.isFinished = true) (rt : ℤ) : (t.rollback rt).2 = t := by
  rw [rollback, if_pos h]

theorem rollback_open (h : t.isFinished = false) (rt : ℤ) :
    (t.rollback rt).2 = { t with
      isFinished := rt == 0, hasError := t.hasError || rt != 0, sent := t.sent ++ [(.ROLLBACK, rt)] } := by
  rw [rollback, h, execute_open h]
  by_cases hrt : rt = 0
  · simp [hrt]
  · simp [hrt, h]

theorem commit_sent (t : MySQLTransaction) (rt : ℤ) : t.sent <+: (t.commit rt).2.sent := by
  cases hfinished : t.isFinished with
  | true =>
    rw [commit_finished hfinished]
  | false =>
    cases herr : t.hasError with
    | true =>
      rw [commit_error herr]
    | false =>
      rw [commit_open hfinished herr]
      exact List.prefix_append _ _

theorem rollback_sent (t : MySQLTransaction) (rt : ℤ) : t.sent <+: (t.rollback rt).2.sent := by
  cases hfinished : t.isFinished with
  | true =>
    rw [rollback_finished hfinished]
  | false =>
    rw [rollback_open hfinished]
    exact List.prefix_append _ _

theorem commit_autoCommit (t : MySQLTransaction) (rt : ℤ) : (t.commit rt).2.autoCommit = t.autoCommit := by
  cases hfinished : t.isFinished with
  | true => rw [commit_finished hfinished]
  | false =>
    cases herr : t.hasError with
    | true => rw [commit_error herr]
    | false => rw [commit_open hfinished herr]

theorem call_autoCommit (t : MySQLTransaction) (c : Call) : (t.call c).autoCommit = t.autoCommit := by
  cases c with
  | commit rt => exact commit_autoCommit t rt
  | execute c rt =>
    cases hfinished : t.isFinished with
    | true => rw [call_finished hfinished]
    | false => exact congrArg (fun out => out.2.autoCommit) (execute_open hfinished c rt)
  | rollback rt =>
    cases hfinished : t.isFinished with
    | true => rw [call_finished hfinished]
    | false => rw [call, rollback_open hfinished]

theorem foldl_autoCommit (t : MySQLTransaction) (calls : List Call) :
    (calls.foldl call t).autoCommit = t.autoCommit := by
  induction calls generalizing t with
  | nil => rfl
  | cons c calls ih => exact (ih (t.call c)).trans (call_autoCommit t c)

theorem call_sent (t : MySQLTransaction) (c : Call) : t.sent <+: (t.call c).sent := by
  cases c with
  | execute c rt =>
    rw [call, execute]
    split
    · exact List.prefix_refl _
    · exact List.prefix_append _ _
  | commit rt => exact commit_sent t rt
  | rollback rt => exact rollback_sent t rt

theorem foldl_sent (t : MySQLTransaction) (calls : List Call) : t.sent <+: (calls.foldl call t).sent := by
  induction calls generalizing t with
  | nil => exact List.prefix_refl _
  | cons c calls ih => exact (call_sent t c).trans (ih (t.call c))

theorem EndsSucceed.of_prefix (h : t'.EndsSucceed) (hpre : t.sent <+: t'.sent) : t.EndsSucceed :=
  fun e he => h e (hpre.subset he)

/-- An open transaction has only been sent statements, and remembers whether one failed; one that
is finished has been ended by the last command. -/
inductive Shape (t : MySQLTransaction) : Prop
  | opened (body : List (Command × ℤ)) (hplain : ∀ e ∈ body, e.1.plain = true)
    (hfinished : t.isFinished = false) (hsent : t.sent = (.BEGIN, 0) :: body)
    (herror : t.hasError = false ↔ ∀ e ∈ body, e.2 = 0)
  | finished (body : List (Command × ℤ)) (c : Command) (hplain : ∀ e ∈ body, e.1.plain = true)
    (hfinished : t.isFinished = true) (hends : c.ends = true)
    (hsent : t.sent = (.BEGIN, 0) :: body ++ [(c, 0)]) (hclean : c = .COMMIT → ∀ e ∈ body, e.2 = 0)

theorem Shape.create {autoCommit : Bool} (h : Create autoCommit rt = some t) :
    t.Shape ∧ t.autoCommit = autoCommit ∧ t.isFinished = false ∧ t.hasError = false := by
  have hrt : rt = 0 := by
    by_contra hne
    have hfalse : (rt == 0) = false := beq_eq_false_iff_ne.mpr hne
    rw [Create, begin, execute, new, if_neg Bool.false_ne_true] at h
    dsimp only at h
    rw [hfalse] at h
    cases h
  subst hrt
  cases h
  exact ⟨.opened [] (fun e he => by cases he) rfl rfl (iff_of_true rfl (fun e he => by cases he)), rfl,
    rfl, rfl⟩

theorem Shape.commit (h : t.Shape) (hok : (t.commit rt).2.EndsSucceed) : (t.commit rt).2.Shape := by
  cases h with
  | finished body c hplain hfinished hends hsent hclean =>
    rw [commit_finished hfinished]
    exact .finished body c hplain hfinished hends hsent hclean
  | opened body hplain hfinished hsent herror =>
    cases herr : t.hasError with
    | true =>
      rw [commit_error herr]
      exact .opened body hplain hfinished hsent herror
    | false =>
      rw [commit_open hfinished herr] at hok ⊢
      have hrt : rt = 0 := hok (.COMMIT, rt) (List.mem_append_right _ List.mem_cons_self) rfl
      subst hrt
      exact .finished body .COMMIT hplain rfl rfl (by rw [hsent]) (fun _ => herror.mp herr)

theorem Shape.rollback (h : t.Shape) (hok : (t.rollback rt).2.EndsSucceed) :
    (t.rollback rt).2.Shape ∧ (t.rollback rt).2.isFinished = true := by
  cases h with
  | finished body c hplain hfinished hends hsent hclean =>
    rw [rollback_finished hfinished]
    exact ⟨.finished body c hplain hfinished hends hsent hclean, hfinished⟩
  | opened body hplain hfinished hsent herror =>
    rw [rollback_open hfinished] at hok ⊢
    have hrt : rt = 0 := hok (.ROLLBACK, rt) (List.mem_append_right _ List.mem_cons_self) rfl
    subst hrt
    exact ⟨.finished body .ROLLBACK hplain rfl rfl (by rw [hsent]) (fun h => by cases h), rfl⟩

theorem Shape.execute (h : t.Shape) {c : Command} (hc : c.plain = true) (rt : ℤ) :
    (t.execute c rt).2.Shape := by
  cases h with
  | finished body c hplain hfinished hends hsent hclean =>
    rw [MySQLTransaction.execute, if_pos hfinished]
    exact .finished body c hplain hfinished hends hsent hclean
  | opened body hplain hfinished hsent herror =>
    rw [execute_open hfinished]
    refine .opened (body ++ [(c, rt)]) (fun e he => ?_) hfinished (by rw [hsent]; rfl) ?_
    · rcases List.mem_append.mp he with he | he
      · exact hplain e he
      · rw [List.mem_singleton.mp he]
        exact hc
    · dsimp only
      rw [Bool.or_eq_false_iff, herror, List.forall_mem_append, List.forall_mem_singleton,
        bne_eq_false_iff_eq]

theorem Shape.foldl (h : t.Shape) (hplain : Plain calls) (hok : (calls.foldl call t).EndsSucceed) :
    (calls.foldl call t).Shape := by
  induction calls generalizing t with
  | nil => exact h
  | cons c calls ih =>
    have hrest : Plain calls := fun d rt hd => hplain d rt (List.mem_cons_of_mem c hd)
    have hone : (t.call c).EndsSucceed := hok.of_prefix (foldl_sent (t.call c) calls)
    refine ih ?_ hrest hok
    cases c with
    | execute d rt => exact h.execute (hplain d rt List.mem_cons_self) rt
    | commit rt => exact h.commit hone
    | rollback rt => exact (h.rollback hone).1

/-! ## Which calls leave an error -/

theorem foldl_rollback (h : t.Shape) (hplain : Plain calls) (hok : (calls.foldl call t).EndsSucceed)
    (hroll : ∃ c ∈ calls, c.isRollback = true) : (calls.foldl call t).isFinished = true := by
  obtain ⟨c, hc, hroll⟩ := hroll
  obtain ⟨before, after, rfl⟩ := List.append_of_mem hc
  cases c with
  | rollback rt =>
    rw [List.foldl_append, List.foldl_cons] at hok ⊢
    have hbefore : (before.foldl call t).Shape := by
      refine h.foldl (fun d rt hd => hplain d rt (List.mem_append_left _ hd)) ?_
      exact hok.of_prefix ((call_sent _ _).trans (foldl_sent _ after))
    have hprefix : (((before.foldl call t).rollback rt).2).EndsSucceed :=
      hok.of_prefix (foldl_sent _ after)
    have hone := (hbefore.rollback hprefix).2
    have hkept := foldl_finished hone after
    rw [call, hkept]
    exact hone
  | execute d rt => cases hroll
  | commit rt => cases hroll

/-- Without a rollback a transaction is left open with an error exactly when a statement fails
before the first commit. -/
theorem foldl_error (hopen : t.isFinished = false) (hok : (calls.foldl call t).EndsSucceed)
    (hroll : ∀ c ∈ calls, c.isRollback = false) :
    ((calls.foldl call t).isFinished = false ∧ (calls.foldl call t).hasError = true) ↔
      t.hasError = true ∨ ∃ c ∈ calls.takeWhile (fun c => !c.isCommit), c.fails = true := by
  induction calls generalizing t with
  | nil => simp [hopen]
  | cons c calls ih =>
    obtain ⟨hc, hcalls⟩ := List.forall_mem_cons.mp hroll
    rw [List.foldl_cons] at hok ⊢
    cases c with
    | execute d rt =>
      have hcall : t.call (.execute d rt) =
          { t with hasError := t.hasError || rt != 0, sent := t.sent ++ [(d, rt)] } :=
        congrArg Prod.snd (execute_open hopen d rt)
      have hopen' : (t.call (.execute d rt)).isFinished = false := by
        rw [hcall]
        exact hopen
      rw [ih hopen' hok hcalls, hcall, List.takeWhile_cons_of_pos rfl, Bool.or_eq_true, or_assoc]
      simp only [List.mem_cons, exists_eq_or_imp]
      rfl
    | commit rt =>
      rw [List.takeWhile_cons_of_neg Bool.false_ne_true]
      cases herr : t.hasError with
      | true =>
        have hcall : t.call (.commit rt) = t := commit_error herr rt
        rw [hcall] at hok ⊢
        rw [ih hopen hok hcalls, herr]
        exact iff_of_true (Or.inl rfl) (Or.inl rfl)
      | false =>
        have hone : (t.call (.commit rt)).EndsSucceed := hok.of_prefix (foldl_sent _ calls)
        have hcall : t.call (.commit rt) = { t with
            isFinished := rt == 0, hasError := rt != 0, sent := t.sent ++ [(.COMMIT, rt)] } :=
          commit_open hopen herr rt
        rw [hcall] at hone
        have hrt : rt = 0 := hone (.COMMIT, rt) (List.mem_append_right _ List.mem_cons_self) rfl
        have hfinished : (t.call (.commit rt)).isFinished = true := by
          rw [hcall, hrt]
          rfl
        rw [foldl_finished hfinished, hfinished]
        simp
    | rollback rt => cases hc

/-! ## The end -/

theorem not_ends {c : Command} (h : c.plain = true) : c.ends = false ∧ c ≠ .BEGIN := by
  cases c with
  | statement sql => exact ⟨rfl, fun h => by cases h⟩
  | _ => cases h

theorem filter_ends {body : List (Command × ℤ)} (h : ∀ e ∈ body, e.1.plain = true) :
    body.filter (fun e => e.1.ends) = [] := by
  refine List.filter_eq_nil_iff.mpr fun e he => ?_
  rw [(not_ends (h e he)).1]
  exact Bool.false_ne_true

theorem openAfter_append (sent : List (Command × ℤ)) (e : Command × ℤ) : openAfter (sent ++ [e]) =
    if e.2 ≠ 0 then openAfter sent else if e.1 = .BEGIN then true else openAfter sent && !e.1.ends :=
  List.foldl_append

theorem openAfter_plain {body : List (Command × ℤ)} (h : ∀ e ∈ body, e.1.plain = true) :
    openAfter ((.BEGIN, 0) :: body) = true := by
  induction body using List.reverseRecOn with
  | nil => rfl
  | append_singleton body e ih =>
    obtain ⟨hbody, he⟩ := List.forall_mem_append.mp h
    obtain ⟨hends, hbegin⟩ := not_ends (he e List.mem_cons_self)
    rw [← List.cons_append, openAfter_append, ih hbody, if_neg hbegin, hends]
    split <;> rfl

theorem Shape.not_ended (h : t.Shape) (hopen : t.isFinished = false) : ¬ t.Ended := by
  intro hended
  cases h with
  | opened body hplain hfinished hsent herror =>
    have honce := hended.once
    rw [hsent, List.filter_cons_of_neg Bool.false_ne_true, filter_ends hplain] at honce
    cases honce
  | finished body c hplain hfinished hends hsent hclean =>
    rw [hopen] at hfinished
    cases hfinished

theorem Shape.ended (h : t.Shape) (hdone : t.isFinished = true) : t.Ended := by
  cases h with
  | opened body hplain hfinished hsent herror =>
    rw [hdone] at hfinished
    cases hfinished
  | finished body c hplain hfinished hends hsent hclean =>
    refine ⟨?_, ?_, ?_⟩
    · rw [hsent, List.filter_append, List.filter_cons_of_neg Bool.false_ne_true, filter_ends hplain,
        List.nil_append, List.filter_cons, if_pos hends]
      rfl
    · intro before rt after hsplit e he
      rw [hsent] at hsplit
      have hbefore : before = (.BEGIN, 0) :: body ∧ c = .COMMIT := by
        cases after using List.reverseRecOn with
        | nil =>
          obtain ⟨hinit, hlast⟩ := List.append_inj' hsplit rfl
          cases hlast
          exact ⟨hinit.symm, rfl⟩
        | append_singleton after d _ =>
          rw [← List.cons_append, ← List.append_assoc] at hsplit
          obtain ⟨hinit, -⟩ := List.append_inj' hsplit rfl
          have hmem : (Command.COMMIT, rt) ∈ (Command.BEGIN, (0 : ℤ)) :: body := by
            rw [hinit]
            exact List.mem_append_right _ List.mem_cons_self
          rcases List.mem_cons.mp hmem with heq | hmem
          · cases heq
          · cases hplain _ hmem
      obtain ⟨rfl, hc⟩ := hbefore
      rcases List.mem_cons.mp he with rfl | he
      · rfl
      · exact hclean hc e he
    · have hbegin : c ≠ .BEGIN := by
        rintro rfl
        cases hends
      rw [hsent, openAfter_append, openAfter_plain hplain, if_neg (by simp), if_neg hbegin, hends]
      rfl

/-- A transaction that has just been created. -/
def begun : MySQLTransaction where
  autoCommit := true
  isFinished := false
  hasError := false
  sent := [(.BEGIN, 0)]

end MySQLTransaction
end Flz
