import Flz.Http.Message
import Flz.Lib.Segments
import Flz.Lib.Trees

/-! # Directories

`FSUtil::ListAllFile`, `FSUtil::Unlink` and `FSUtil::Rm` of `src/util.cc` over what is found at a path: a file that is
no directory, by its type, or a directory with its entries in the order of `readdir`. The entries `.` and `..`, which
both loops pass over, are left out.
-/
namespace Flz.FSUtil
open Lib Http

/-- The types of files other than directories. -/
inductive FileType
  | REG | LNK | SOCK | BLK | CHR | FIFO
  deriving DecidableEq, Repr

/-- The bits of `st_mode` for the type. -/
def FileType.st_mode : FileType → UInt32
  | .REG => 0x8000
  | .LNK => 0xa000
  | .SOCK => 0xc000
  | .BLK => 0x6000
  | .CHR => 0x2000
  | .FIFO => 0x1000

def S_IFDIR : UInt32 := 0x4000

/-- A file with all that is below it. -/
abbrev File := Tree (List UInt8) FileType

/-- The system calls that fail on a path although the file is there. -/
structure Refused where
  access : List UInt8 → Bool
  lstat : List UInt8 → Bool
  opendir : List UInt8 → Bool
  unlink : List UInt8 → Bool
  rmdir : List UInt8 → Bool

/-- No call fails on a file that is there. -/
def Refused.none : Refused := ⟨fun _ => false, fun _ => false, fun _ => false, fun _ => false, fun _ => false⟩

/-- `path + "/" + dp->d_name`. -/
def child (path d_name : List UInt8) : List UInt8 := path ++ ascii "/" ++ d_name

/-- Whether a regular file gets into `files`. -/
def hasSubfix (filename subfix : List UInt8) : Bool :=
  if subfix = [] then true
  else if filename.length < subfix.length then false
  else filename.drop (filename.length - subfix.length) = subfix

mutual

/-- What `ListAllFile` appends to `files`; `opendir` fails on anything but a directory. -/
def ListAllFile (refused : Refused) (subfix path : List UInt8) : File → List (List UInt8)
  | .leaf _ => []
  | .dir entries =>
    if refused.access path ∨ refused.opendir path then [] else ListEntries refused subfix path entries

/-- The loop over the entries, with `d_type` as their types. -/
def ListEntries (refused : Refused) (subfix path : List UInt8) : List (List UInt8 × File) → List (List UInt8)
  | [] => []
  | (d_name, .dir below) :: entries =>
    ListAllFile refused subfix (child path d_name) (.dir below) ++ ListEntries refused subfix path entries
  | (d_name, .leaf d_type) :: entries =>
    if d_type = .REG ∧ hasSubfix d_name subfix then child path d_name :: ListEntries refused subfix path entries
    else ListEntries refused subfix path entries

end

/-- `Unlink(filename, exist)`: its result and what is left. -/
def Unlink (refused : Refused) (filename : List UInt8) (exist : Bool) (type : FileType) : Bool × Option File :=
  if exist = false ∧ refused.lstat filename then (true, some (.leaf type))
  else if refused.unlink filename then (false, some (.leaf type))
  else (true, none)

mutual

/-- `Rm(path)` of a file that is there: its result and what is left of it. -/
def Rm (refused : Refused) (path : List UInt8) : File → Bool × Option File
  | .leaf type =>
    if refused.lstat path then (true, some (.leaf type))
    -- `opendir` fails
    else if type.st_mode &&& S_IFDIR ≠ 0 then (false, some (.leaf type))
    else Unlink refused path false type
  | .dir entries =>
    if refused.lstat path then (true, some (.dir entries))
    else if refused.opendir path then (false, some (.dir entries))
    else
      let (ret, left) := RmEntries refused path true entries
      if left = [] ∧ refused.rmdir path = false then (ret, none) else (false, some (.dir left))

/-- The loop over the entries, which sets `ret` anew for each of them. -/
def RmEntries (refused : Refused) (path : List UInt8) (ret : Bool) :
    List (List UInt8 × File) → Bool × List (List UInt8 × File)
  | [] => (ret, [])
  | (d_name, file) :: entries =>
    let (ret, left) := Rm refused (child path d_name) file
    let (ret, others) := RmEntries refused path ret entries
    (ret, match left with
      | some file => (d_name, file) :: others
      | none => others)

end

/-- The path of what is below `path`. -/
def pathTo (path : List UInt8) (names : List (List UInt8)) : List UInt8 := names.foldl child path

/-! ## What is listed -/

/-- A directory can be read. -/
def Opens (refused : Refused) (path : List UInt8) : Prop := refused.access path = false ∧ refused.opendir path = false

section
variable {refused : Refused} {subfix path p : List UInt8} {t : File} {entries : List (List UInt8 × File)}

theorem hasSubfix_iff (filename subfix : List UInt8) : hasSubfix filename subfix = true ↔ subfix <:+ filename := by
  unfold hasSubfix
  split
  · next hnil => exact iff_of_true rfl (hnil ▸ List.nil_suffix)
  · split
    · next hshort => exact iff_of_false Bool.false_ne_true fun h => absurd h.length_le (Nat.not_le.mpr hshort)
    · exact decide_eq_true_iff.trans (eq_comm.trans List.suffix_iff_eq_drop.symm)

/-- What one entry adds. -/
def listed (refused : Refused) (subfix path : List UInt8) (e : List UInt8 × File) : List (List UInt8) :=
  ListEntries refused subfix path [e]

theorem ListEntries_cons (refused : Refused) (subfix path : List UInt8) (e : List UInt8 × File)
    (entries : List (List UInt8 × File)) : ListEntries refused subfix path (e :: entries) =
      listed refused subfix path e ++ ListEntries refused subfix path entries := by
  obtain ⟨d_name, file⟩ := e
  cases file with
  | dir below => simp only [listed, ListEntries, List.append_nil]
  | leaf d_type =>
    simp only [listed, ListEntries]
    split <;> rfl

theorem ListEntries_eq (refused : Refused) (subfix path : List UInt8) (entries : List (List UInt8 × File)) :
    ListEntries refused subfix path entries = entries.flatMap (listed refused subfix path) := by
  induction entries with
  | nil => rfl
  | cons e entries ih => rw [ListEntries_cons, ih, List.flatMap_cons]

theorem listed_dir (refused : Refused) (subfix path d_name : List UInt8) (below : List (List UInt8 × File)) :
    listed refused subfix path (d_name, .dir below) = ListAllFile refused subfix (child path d_name) (.dir below) := by
  simp only [listed, ListEntries, List.append_nil]

theorem mem_listed_leaf {d_name : List UInt8} {d_type : FileType} :
    p ∈ listed refused subfix path (d_name, .leaf d_type) ↔ d_type = .REG ∧ subfix <:+ d_name ∧ p = child path d_name := by
  rw [← and_assoc, ← hasSubfix_iff]
  simp only [listed, ListEntries]
  split
  · next h => rw [List.mem_singleton, and_iff_right h]
  · next h => exact iff_of_false List.not_mem_nil fun hp => h hp.1

theorem pathTo_cons (path n : List UInt8) (ns : List (List UInt8)) :
    pathTo path (n :: ns) = pathTo (child path n) ns := rfl

/-- The directories on the way, the first one apart. -/
theorem forall_prefix_cons {P : List UInt8 → Prop} {n : List UInt8} {ns : List (List UInt8)} :
    (∀ ms, ms <+: n :: ns → P (pathTo path ms)) ↔ P path ∧ ∀ ms, ms <+: ns → P (pathTo (child path n) ms) := by
  constructor
  · intro h
    exact ⟨h [] List.nil_prefix, fun ms hms => h (n :: ms) (List.cons_prefix_cons.mpr ⟨rfl, hms⟩)⟩
  · rintro ⟨hfirst, hrest⟩ ms hms
    rcases List.prefix_cons_iff.mp hms with rfl | ⟨ms, rfl, hrestms⟩
    · exact hfirst
    · exact hrest ms hrestms

theorem forall_prefix_nil {P : List UInt8 → Prop} : (∀ ms, ms <+: [] → P (pathTo path ms)) ↔ P path := by
  constructor
  · intro h
    exact h [] List.nil_prefix
  · intro h ms hms
    rwa [List.prefix_nil.mp hms]

/-- The regular files below with the ending in their names, as far as all directories on the way can be read. -/
theorem mem_ListAllFile : p ∈ ListAllFile refused subfix path t ↔ ∃ ns n, t.Reaches (ns ++ [n]) (.leaf .REG) ∧
    subfix <:+ n ∧ (∀ ms, ms <+: ns → Opens refused (pathTo path ms)) ∧ p = pathTo path (ns ++ [n]) := by
  induction t using Tree.induction generalizing path with
  | leaf type =>
    rw [ListAllFile]
    refine iff_of_false List.not_mem_nil ?_
    rintro ⟨ns, n, hreach, -⟩
    exact absurd (Tree.reaches_leaf.mp hreach).1 (List.append_ne_nil_of_right_ne_nil ns (List.cons_ne_nil n []))
  | dir entries ih =>
    rw [ListAllFile]
    by_cases hopen : refused.access path ∨ refused.opendir path
    · rw [if_pos hopen]
      refine iff_of_false List.not_mem_nil ?_
      rintro ⟨ns, n, -, -, hopens, -⟩
      obtain ⟨haccess, hopendir⟩ := hopens [] List.nil_prefix
      rcases hopen with h | h
      · exact absurd (haccess.symm.trans h) Bool.false_ne_true
      · exact absurd (hopendir.symm.trans h) Bool.false_ne_true
    · have hopens : Opens refused path := by
        rw [not_or, Bool.not_eq_true, Bool.not_eq_true] at hopen
        exact hopen
      rw [if_neg hopen, ListEntries_eq, List.mem_flatMap]
      constructor
      · rintro ⟨⟨d_name, file⟩, he, hp⟩
        cases file with
        | dir below =>
          rw [listed_dir, ih _ he] at hp
          obtain ⟨ns, n, hreach, hsubfix, hway, rfl⟩ := hp
          exact ⟨d_name :: ns, n, .entry he hreach, hsubfix, forall_prefix_cons.mpr ⟨hopens, hway⟩, rfl⟩
        | leaf d_type =>
          obtain ⟨rfl, hsubfix, rfl⟩ := mem_listed_leaf.mp hp
          exact ⟨[], d_name, .entry he (.here _), hsubfix, forall_prefix_nil.mpr hopens, rfl⟩
      · rintro ⟨ns, n, hreach, hsubfix, hway, rfl⟩
        cases ns with
        | nil =>
          obtain ⟨u, he, hu⟩ := Tree.reaches_dir_cons.mp hreach
          rw [Tree.reaches_nil.mp hu] at he
          exact ⟨_, he, mem_listed_leaf.mpr ⟨rfl, hsubfix, rfl⟩⟩
        | cons m ns =>
          obtain ⟨u, he, hu⟩ := Tree.reaches_dir_cons.mp hreach
          have hbelow := (@ih _ he (child path m)).mpr
            ⟨ns, n, hu, hsubfix, (forall_prefix_cons.mp hway).2, rfl⟩
          refine ⟨_, he, ?_⟩
          cases u with
          | dir below =>
            rw [listed_dir]
            exact hbelow
          | leaf d_type =>
            rw [ListAllFile] at hbelow
            exact absurd hbelow List.not_mem_nil

/-! ## Each file once -/

/-- Behind a path there is a `/`, unless it ends. -/
theorem pathTo_eq (path : List UInt8) (ns : List (List UInt8)) :
    ∃ rest, pathTo path ns = path ++ rest ∧ (rest = [] ∨ ∃ more, rest = 47 :: more) := by
  induction ns generalizing path with
  | nil => exact ⟨[], (List.append_nil path).symm, Or.inl rfl⟩
  | cons n ns ih =>
    obtain ⟨rest, hrest, -⟩ := ih (child path n)
    refine ⟨47 :: (n ++ rest), ?_, Or.inr ⟨_, rfl⟩⟩
    rw [pathTo_cons, hrest, child, List.append_assoc, List.append_assoc]
    rfl

theorem before_slash {n rest : List UInt8} (hn : 47 ∉ n) (hrest : rest = [] ∨ ∃ more, rest = 47 :: more) :
    Segments.before 47 (n ++ rest) = n := by
  rcases hrest with rfl | ⟨more, rfl⟩
  · rw [List.append_nil, Segments.before_of_not_mem hn]
  · exact Segments.before_append hn

theorem exists_of_mem_listed {e : List UInt8 × File} (h : p ∈ listed refused subfix path e) :
    ∃ ns, p = pathTo (child path e.1) ns := by
  obtain ⟨d_name, file⟩ := e
  cases file with
  | dir below =>
    rw [listed_dir] at h
    obtain ⟨ns, n, -, -, -, hp⟩ := mem_ListAllFile.mp h
    exact ⟨ns ++ [n], hp⟩
  | leaf d_type => exact ⟨[], (mem_listed_leaf.mp h).2.2⟩

/-- What two entries add has nothing in common. -/
theorem listed_disjoint {e f : List UInt8 × File} (he : 47 ∉ e.1) (hf : 47 ∉ f.1) (hne : e.1 ≠ f.1) :
    List.Disjoint (listed refused subfix path e) (listed refused subfix path f) := by
  intro p hpe hpf
  obtain ⟨ns, hns⟩ := exists_of_mem_listed hpe
  obtain ⟨ms, hms⟩ := exists_of_mem_listed hpf
  obtain ⟨rest, hrest, hslash⟩ := pathTo_eq (child path e.1) ns
  obtain ⟨rest', hrest', hslash'⟩ := pathTo_eq (child path f.1) ms
  have hsame : path ++ ascii "/" ++ (e.1 ++ rest) = path ++ ascii "/" ++ (f.1 ++ rest') := by
    rw [← List.append_assoc, ← List.append_assoc]
    exact hrest.symm.trans (hns.symm.trans (hms.trans hrest'))
  have hnames := congrArg (Segments.before 47) (List.append_cancel_left hsame)
  rw [before_slash he hslash, before_slash hf hslash'] at hnames
  exact hne hnames

/-- The names in one directory differ, and none has a `/` in it. -/
structure WellNamed (t : File) : Prop where
  distinct : t.Distinct
  noSlash : ∀ n, t.Named n → 47 ∉ n

theorem WellNamed.entry {d_name : List UInt8} (h : WellNamed (.dir entries)) (he : (d_name, t) ∈ entries) : WellNamed t :=
  ⟨h.distinct.entry he, fun n hn => h.noSlash n (hn.entry he)⟩

theorem ListAllFile_nodup (h : WellNamed t) : (ListAllFile refused subfix path t).Nodup := by
  induction t using Tree.induction generalizing path with
  | leaf type =>
    rw [ListAllFile]
    exact List.nodup_nil
  | dir entries ih =>
    rw [ListAllFile]
    split
    · exact List.nodup_nil
    · rw [ListEntries_eq, List.nodup_flatMap]
      constructor
      · rintro ⟨d_name, file⟩ he
        cases file with
        | dir below =>
          rw [listed_dir]
          exact ih _ he (h.entry he)
        | leaf d_type =>
          simp only [listed, ListEntries]
          split
          · exact List.nodup_singleton _
          · exact List.nodup_nil
      · have hnames : entries.Pairwise fun e f => e.1 ≠ f.1 := List.pairwise_map.mp h.distinct.nodup
        refine hnames.imp_of_mem fun {e f} he hf hne => ?_
        exact listed_disjoint (h.noSlash _ (Tree.named_entry he)) (h.noSlash _ (Tree.named_entry hf)) hne

/-- A regular file whose path `ListAllFile` is to find. -/
def Wanted (refused : Refused) (subfix path : List UInt8) (t : File) (p : List UInt8) : Prop :=
  ∃ ns n, t.Reaches (ns ++ [n]) (.leaf .REG) ∧ subfix <:+ n ∧
    (∀ ms, ms <+: ns → Opens refused (pathTo path ms)) ∧ p = pathTo path (ns ++ [n])

/-- Each of the wanted files is listed once, and nothing else. -/
theorem ListAllFile_exact (refused : Refused) (subfix path : List UInt8) {t : File} (h : WellNamed t) :
    (ListAllFile refused subfix path t).Nodup ∧
      ∀ p, p ∈ ListAllFile refused subfix path t ↔ Wanted refused subfix path t p :=
  ⟨ListAllFile_nodup h, fun _ => mem_ListAllFile⟩

theorem wellNamed_leaf (type : FileType) : WellNamed (.leaf type) where
  distinct ns entries hreach := by cases (Tree.reaches_leaf.mp hreach).2
  noSlash n hn := by
    obtain ⟨ns, u, hreach⟩ := hn
    exact absurd (Tree.reaches_leaf.mp hreach).1 (List.append_ne_nil_of_right_ne_nil ns (List.cons_ne_nil n []))

theorem wellNamed_dir (hnames : (entries.map Prod.fst).Nodup) (hslash : ∀ e ∈ entries, 47 ∉ e.1)
    (hbelow : ∀ e ∈ entries, WellNamed e.2) : WellNamed (.dir entries) where
  distinct ns below hreach := by
    cases ns with
    | nil =>
      cases Tree.reaches_nil.mp hreach
      exact hnames
    | cons n ns =>
      obtain ⟨u, he, hu⟩ := Tree.reaches_dir_cons.mp hreach
      exact (hbelow _ he).distinct ns below hu
  noSlash m hm := by
    obtain ⟨ns, u, hreach⟩ := hm
    cases ns with
    | nil =>
      obtain ⟨v, he, -⟩ := Tree.reaches_dir_cons.mp hreach
      exact hslash _ he
    | cons n ns =>
      obtain ⟨v, he, hv⟩ := Tree.reaches_dir_cons.mp hreach
      exact (hbelow _ he).noSlash m ⟨ns, u, hv⟩

/-- A directory with one in it. -/
def sampleTree : File :=
  .dir [(ascii "log.yml", .leaf .REG), (ascii "sub", .dir [(ascii "tcp.yml", .leaf .REG), (ascii "note", .leaf .REG)])]

theorem wellNamed_sampleTree : WellNamed sampleTree := by
  have hbelow : WellNamed (.dir [(ascii "tcp.yml", .leaf .REG), (ascii "note", .leaf .REG)]) :=
    wellNamed_dir (by decide) (by decide) (by simp [wellNamed_leaf])
  exact wellNamed_dir (by decide) (by decide) (by simp [wellNamed_leaf, hbelow])

theorem ListAllFile_exact_sample :
    (ListAllFile .none (ascii ".yml") (ascii "conf") sampleTree).Nodup ∧
      ∀ p, p ∈ ListAllFile .none (ascii ".yml") (ascii "conf") sampleTree ↔
        Wanted .none (ascii ".yml") (ascii "conf") sampleTree p :=
  ListAllFile_exact .none _ _ wellNamed_sampleTree

/-! ## What is removed -/

/-- What keeps a file where it is: a call that fails, or a type whose bits have the one of a directory among them. -/
def Stays (refused : Refused) (path : List UInt8) : File → Prop
  | .leaf type => refused.lstat path = true ∨ type.st_mode &&& S_IFDIR ≠ 0 ∨ refused.unlink path = true
  | .dir _ => refused.lstat path = true ∨ refused.opendir path = true ∨ refused.rmdir path = true

/-- The loop over a directory is not reached. -/
def Closed (refused : Refused) (path : List UInt8) : Prop := refused.lstat path = true ∨ refused.opendir path = true

theorem Rm_leaf (refused : Refused) (path : List UInt8) (type : FileType) :
    ((Rm refused path (.leaf type)).2 = none ∧ ¬ Stays refused path (.leaf type) ∧ (Rm refused path (.leaf type)).1 = true) ∨
      ((Rm refused path (.leaf type)).2 = some (.leaf type) ∧ Stays refused path (.leaf type) ∧
        ((Rm refused path (.leaf type)).1 = true ↔ refused.lstat path = true)) := by
  rw [Rm, Unlink]
  by_cases hlstat : refused.lstat path = true
  · rw [if_pos hlstat]
    exact Or.inr ⟨rfl, Or.inl hlstat, iff_of_true rfl hlstat⟩
  · rw [if_neg hlstat]
    by_cases hdir : type.st_mode &&& S_IFDIR ≠ 0
    · rw [if_pos hdir]
      exact Or.inr ⟨rfl, Or.inr (Or.inl hdir), iff_of_false Bool.false_ne_true hlstat⟩
    · rw [if_neg hdir, if_neg fun h => hlstat h.2]
      by_cases hunlink : refused.unlink path = true
      · rw [if_pos hunlink]
        exact Or.inr ⟨rfl, Or.inr (Or.inr hunlink), iff_of_false Bool.false_ne_true hlstat⟩
      · rw [if_neg hunlink]
        refine Or.inl ⟨rfl, ?_, rfl⟩
        rintro (h | h | h)
        · exact hlstat h
        · exact hdir h
        · exact hunlink h

/-- What the loop leaves. -/
theorem RmEntries_snd (refused : Refused) (path : List UInt8) (ret : Bool) (entries : List (List UInt8 × File)) :
    (RmEntries refused path ret entries).2 =
      entries.filterMap fun e => (Rm refused (child path e.1) e.2).2.map (e.1, ·) := by
  induction entries generalizing ret with
  | nil => simp only [RmEntries, List.filterMap_nil]
  | cons e entries ih =>
    obtain ⟨d_name, file⟩ := e
    cases hleft : (Rm refused (child path d_name) file).2 with
    | none => simp only [RmEntries, List.filterMap_cons, hleft, ih, Option.map_none]
    | some left => simp only [RmEntries, List.filterMap_cons, hleft, ih, Option.map_some]

/-- The last entry decides on `ret`, but none was in vain if nothing is left. -/
theorem RmEntries_fst {ret : Bool} (hret : ret = true)
    (h : ∀ e ∈ entries, (Rm refused (child path e.1) e.2).2 = none → (Rm refused (child path e.1) e.2).1 = true)
    (hleft : (RmEntries refused path ret entries).2 = []) : (RmEntries refused path ret entries).1 = true := by
  induction entries generalizing ret with
  | nil => simpa only [RmEntries] using hret
  | cons e entries ih =>
    obtain ⟨d_name, file⟩ := e
    obtain ⟨hfirst, hrest⟩ := List.forall_mem_cons.mp h
    have hgone : (Rm refused (child path d_name) file).2 = none ∧ (RmEntries refused path
        (Rm refused (child path d_name) file).1 entries).2 = [] := by
      cases hfile : (Rm refused (child path d_name) file).2 with
      | none => simpa only [RmEntries, hfile, true_and] using hleft
      | some left => simp only [RmEntries, hfile, reduceCtorEq] at hleft
    have hall := ih (hfirst hgone.1) hrest hgone.2
    simpa only [RmEntries] using hall

/-- What the directory and its entries make of the result. -/
theorem Rm_dir (refused : Refused) (path : List UInt8) (entries : List (List UInt8 × File)) :
    (Closed refused path ∧ (Rm refused path (.dir entries)).2 = some (.dir entries) ∧
        ((Rm refused path (.dir entries)).1 = true ↔ refused.lstat path = true)) ∨
      (¬ Closed refused path ∧ (RmEntries refused path true entries).2 = [] ∧ refused.rmdir path = false ∧
        Rm refused path (.dir entries) = ((RmEntries refused path true entries).1, none)) ∨
      (¬ Closed refused path ∧ ¬ ((RmEntries refused path true entries).2 = [] ∧ refused.rmdir path = false) ∧
        Rm refused path (.dir entries) = (false, some (.dir (RmEntries refused path true entries).2))) := by
  rw [Rm]
  by_cases hlstat : refused.lstat path = true
  · rw [if_pos hlstat]
    exact Or.inl ⟨Or.inl hlstat, rfl, iff_of_true rfl hlstat⟩
  · rw [if_neg hlstat]
    by_cases hopendir : refused.opendir path = true
    · rw [if_pos hopendir]
      exact Or.inl ⟨Or.inr hopendir, rfl, iff_of_false Bool.false_ne_true hlstat⟩
    · rw [if_neg hopendir]
      have hopen : ¬ Closed refused path := not_or.mpr ⟨hlstat, hopendir⟩
      by_cases hempty : (RmEntries refused path true entries).2 = [] ∧ refused.rmdir path = false
      · exact Or.inr (Or.inl ⟨hopen, hempty.1, hempty.2, if_pos hempty⟩)
      · exact Or.inr (Or.inr ⟨hopen, hempty, if_neg hempty⟩)

/-- The result tells whether the file is gone, except where `lstat` did not see it. -/
theorem Rm_fst (refused : Refused) (path : List UInt8) (t : File) :
    (Rm refused path t).1 = true ↔ (Rm refused path t).2 = none ∨ refused.lstat path = true := by
  induction t using Tree.induction generalizing path with
  | leaf type =>
    rcases Rm_leaf refused path type with ⟨hleft, -, hret⟩ | ⟨hleft, -, hret⟩
    · exact iff_of_true hret (Or.inl hleft)
    · rw [hret, hleft]
      exact (or_iff_right (Option.some_ne_none _)).symm
  | dir entries ih =>
    rcases Rm_dir refused path entries with ⟨-, hleft, hret⟩ | ⟨-, hempty, -, hrm⟩ | ⟨hopen, -, hrm⟩
    · rw [hret, hleft]
      exact (or_iff_right (Option.some_ne_none _)).symm
    · rw [hrm]
      refine iff_of_true (RmEntries_fst rfl ?_ hempty) (Or.inl rfl)
      intro e he hgone
      exact (ih e he (child path e.1)).mpr (Or.inl hgone)
    · rw [hrm]
      refine iff_of_false Bool.false_ne_true ?_
      rintro (h | h)
      · exact Option.some_ne_none _ h
      · exact hopen (Or.inl h)

theorem RmEntries_nil_iff : (RmEntries refused path true entries).2 = [] ↔
    ∀ e ∈ entries, (Rm refused (child path e.1) e.2).2 = none := by
  rw [RmEntries_snd, List.filterMap_eq_nil_iff]
  exact forall₂_congr fun e _ => Option.map_eq_none_iff

/-- A file is gone exactly when nothing in it stays. -/
theorem Rm_snd_eq_none (refused : Refused) (path : List UInt8) (t : File) :
    (Rm refused path t).2 = none ↔ ∀ ns u, t.Reaches ns u → ¬ Stays refused (pathTo path ns) u := by
  induction t using Tree.induction generalizing path with
  | leaf type =>
    have hall : (∀ ns u, (Tree.leaf type : File).Reaches ns u → ¬ Stays refused (pathTo path ns) u) ↔
        ¬ Stays refused path (.leaf type) := by
      constructor
      · intro h
        exact h [] _ (.here _)
      · rintro h ns u hreach
        obtain ⟨rfl, rfl⟩ := Tree.reaches_leaf.mp hreach
        exact h
    rw [hall]
    rcases Rm_leaf refused path type with ⟨hleft, hstays, -⟩ | ⟨hleft, hstays, -⟩
    · exact iff_of_true hleft hstays
    · exact iff_of_false (by rw [hleft]; exact Option.some_ne_none _) (not_not_intro hstays)
  | dir entries ih =>
    have hall : (∀ ns u, (Tree.dir entries : File).Reaches ns u → ¬ Stays refused (pathTo path ns) u) ↔
        ¬ Stays refused path (.dir entries) ∧ ∀ e ∈ entries, (Rm refused (child path e.1) e.2).2 = none := by
      constructor
      · intro h
        refine ⟨h [] _ (.here _), fun e he => (ih e he _).mpr fun ns u hreach => ?_⟩
        exact h (e.1 :: ns) u (.entry he hreach)
      · rintro ⟨hfirst, hrest⟩ ns u hreach
        cases ns with
        | nil =>
          rw [← Tree.reaches_nil.mp hreach]
          exact hfirst
        | cons n ns =>
          obtain ⟨v, he, hv⟩ := Tree.reaches_dir_cons.mp hreach
          exact (ih _ he _).mp (hrest _ he) ns u hv
    rw [hall, ← RmEntries_nil_iff]
    rcases Rm_dir refused path entries with ⟨hclosed, hleft, -⟩ | ⟨hopen, hempty, hrmdir, hrm⟩ | ⟨hopen, hkept, hrm⟩
    · refine iff_of_false (by rw [hleft]; exact Option.some_ne_none _) fun h => h.1 ?_
      exact hclosed.imp_right Or.inl
    · rw [hrm]
      refine iff_of_true rfl ⟨?_, hempty⟩
      rintro (h | h | h)
      · exact hopen (Or.inl h)
      · exact hopen (Or.inr h)
      · exact Bool.false_ne_true (hrmdir.symm.trans h)
    · rw [hrm]
      refine iff_of_false (Option.some_ne_none _) fun h => hkept ⟨h.2, ?_⟩
      exact Bool.eq_false_iff.mpr fun hrmdir => h.1 (Or.inr (Or.inr hrmdir))

/-- A file at the end of the names keeps its place, or a directory before it does not let the loop in. -/
def Kept (refused : Refused) (path : List UInt8) (ns : List (List UInt8)) (type : FileType) : Prop :=
  Stays refused (pathTo path ns) (.leaf type) ∨ ∃ ms, ms <+: ns ∧ ms ≠ ns ∧ Closed refused (pathTo path ms)

theorem kept_nil {type : FileType} : Kept refused path [] type ↔ Stays refused path (.leaf type) := by
  refine or_iff_left ?_
  rintro ⟨ms, hms, hne, -⟩
  exact hne (List.prefix_nil.mp hms)

theorem kept_cons {n : List UInt8} {ns : List (List UInt8)} {type : FileType} :
    Kept refused path (n :: ns) type ↔ Closed refused path ∨ Kept refused (child path n) ns type := by
  constructor
  · rintro (hstays | ⟨ms, hms, hne, hclosed⟩)
    · exact Or.inr (Or.inl hstays)
    · rcases List.prefix_cons_iff.mp hms with rfl | ⟨ks, rfl, hks⟩
      · exact Or.inl hclosed
      · exact Or.inr (Or.inr ⟨ks, hks, fun h => hne (congrArg (n :: ·) h), hclosed⟩)
  · rintro (hclosed | hstays | ⟨ms, hms, hne, hclosed⟩)
    · exact Or.inr ⟨[], List.nil_prefix, (List.cons_ne_nil n ns).symm, hclosed⟩
    · exact Or.inl hstays
    · exact Or.inr ⟨n :: ms, List.cons_prefix_cons.mpr ⟨rfl, hms⟩, fun h => hne (List.cons.inj h).2, hclosed⟩

theorem mem_RmEntries {n : List UInt8} {v : File} : (n, v) ∈ (RmEntries refused path true entries).2 ↔
    ∃ u, (n, u) ∈ entries ∧ (Rm refused (child path n) u).2 = some v := by
  rw [RmEntries_snd, List.mem_filterMap]
  constructor
  · rintro ⟨⟨m, u⟩, he, hleft⟩
    obtain ⟨w, hw, hpair⟩ := Option.map_eq_some_iff.mp hleft
    obtain ⟨rfl, rfl⟩ := Prod.mk.inj hpair
    exact ⟨u, he, hw⟩
  · rintro ⟨u, he, hleft⟩
    exact ⟨(n, u), he, Option.map_eq_some_iff.mpr ⟨v, hleft, rfl⟩⟩

/-- The files other than directories that are left. -/
theorem Rm_left (refused : Refused) (path : List UInt8) (t : File) (ns : List (List UInt8)) (type : FileType) :
    (∃ u, (Rm refused path t).2 = some u ∧ u.Reaches ns (.leaf type)) ↔
      t.Reaches ns (.leaf type) ∧ Kept refused path ns type := by
  induction t using Tree.induction generalizing path ns with
  | leaf type' =>
    rcases Rm_leaf refused path type' with ⟨hleft, hstays, -⟩ | ⟨hleft, hstays, -⟩
    · rw [hleft]
      constructor
      · rintro ⟨u, hu, -⟩
        cases hu
      · rintro ⟨hreach, hkept⟩
        obtain ⟨rfl, hsame⟩ := Tree.reaches_leaf.mp hreach
        rw [kept_nil, hsame] at hkept
        exact absurd hkept hstays
    · rw [hleft]
      constructor
      · rintro ⟨u, hu, hreach⟩
        rw [← Option.some.inj hu] at hreach
        obtain ⟨rfl, hsame⟩ := Tree.reaches_leaf.mp hreach
        exact ⟨hreach, kept_nil.mpr (hsame ▸ hstays)⟩
      · rintro ⟨hreach, -⟩
        exact ⟨_, rfl, hreach⟩
  | dir entries ih =>
    cases ns with
    | nil =>
      refine iff_of_false ?_ fun h => ?_
      · rintro ⟨u, hu, hreach⟩
        rw [Tree.reaches_nil.mp hreach] at hu
        rcases Rm_dir refused path entries with ⟨-, hleft, -⟩ | ⟨-, -, -, hrm⟩ | ⟨-, -, hrm⟩
        · rw [hleft] at hu
          cases hu
        · rw [hrm] at hu
          cases hu
        · rw [hrm] at hu
          cases hu
      · have hsame := Tree.reaches_nil.mp h.1
        cases hsame
    | cons n ns =>
      rw [kept_cons, Tree.reaches_dir_cons]
      -- with the loop it is as with the entries
      have hloop : (∃ v, (n, v) ∈ (RmEntries refused path true entries).2 ∧ v.Reaches ns (.leaf type)) ↔
          (∃ u, (n, u) ∈ entries ∧ u.Reaches ns (.leaf type)) ∧ Kept refused (child path n) ns type := by
        constructor
        · rintro ⟨v, hv, hreach⟩
          obtain ⟨u, hu, hleft⟩ := mem_RmEntries.mp hv
          obtain ⟨hbelow, hkept⟩ := (ih _ hu (child path n) ns).mp ⟨v, hleft, hreach⟩
          exact ⟨⟨u, hu, hbelow⟩, hkept⟩
        · rintro ⟨⟨u, hu, hbelow⟩, hkept⟩
          obtain ⟨v, hleft, hreach⟩ := (ih _ hu (child path n) ns).mpr ⟨hbelow, hkept⟩
          exact ⟨v, mem_RmEntries.mpr ⟨u, hu, hleft⟩, hreach⟩
      rcases Rm_dir refused path entries with ⟨hclosed, hleft, -⟩ | ⟨hopen, hempty, -, hrm⟩ | ⟨hopen, -, hrm⟩
      · rw [hleft, and_iff_left (Or.inl hclosed), ← Tree.reaches_dir_cons]
        constructor
        · rintro ⟨u, hu, hreach⟩
          rwa [← Option.some.inj hu] at hreach
        · intro hreach
          exact ⟨_, rfl, hreach⟩
      · rw [hrm, or_iff_right hopen, ← hloop, hempty]
        constructor
        · rintro ⟨u, hu, -⟩
          cases hu
        · rintro ⟨v, hv, -⟩
          cases hv
      · rw [hrm, or_iff_right hopen, ← hloop, ← Tree.reaches_dir_cons]
        constructor
        · rintro ⟨u, hu, hreach⟩
          rwa [← Option.some.inj hu] at hreach
        · intro hreach
          exact ⟨_, rfl, hreach⟩

/-- What `Rm` returns, when the file is gone with all below it, and what is left of it otherwise. -/
theorem Rm_effect (refused : Refused) (path : List UInt8) (t : File) :
    ((Rm refused path t).1 = true ↔ (Rm refused path t).2 = none ∨ refused.lstat path = true) ∧
      ((Rm refused path t).2 = none ↔ ∀ ns u, t.Reaches ns u → ¬ Stays refused (pathTo path ns) u) ∧
      ∀ ns type, (∃ u, (Rm refused path t).2 = some u ∧ u.Reaches ns (.leaf type)) ↔
        t.Reaches ns (.leaf type) ∧ Kept refused path ns type :=
  ⟨Rm_fst refused path t, Rm_snd_eq_none refused path t, Rm_left refused path t⟩

/-- A directory with a socket in it is not removed, though no call is refused. -/
example : Rm .none (ascii "run") (.dir [(ascii "log", .leaf .REG), (ascii "flz.sock", .leaf .SOCK)]) =
    (false, some (.dir [(ascii "flz.sock", .leaf .SOCK)])) := rfl

end

end Flz.FSUtil
