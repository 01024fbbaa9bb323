import TinyOS.NanoFSTree

set_option autoImplicit false

/-! `fs_get_pwd` with the indices it uses on its buffer: the path is built
backwards from the end, and it fits in every state whose path is short enough. -/
namespace TinyOS.NanoFS
open ByteWords LibcString StateRuns AncestorChain

/-- The indices used on `tmp` so far, the last one first, beside the loop's state. -/
abbrev PathLog := List ℤ × (ℤ × (ℤ → UInt8))

/-- `tmp[--pos] = c` -/
def pushCharLog (c : UInt8) (st : PathLog) : PathLog := ((st.2.1-1) :: st.1, pushChar c st.2)

def pushNameLog (name : List UInt8) (st : PathLog) : PathLog :=
  pushCharLog 47 (name.foldr pushCharLog st)

/-- The bytes that `strncpy` reads of its source: up to the first NUL, at most `n`. -/
def strncpyReads (s : List UInt8) (n : ℕ) : ℕ := min n (strlen s+1)

/-- The bytes from `&tmp[pos]` on. -/
def pathSource (st : ℤ × (ℤ → UInt8)) : List UInt8 := List.ofFn fun i : Fin 256 => st.2 (st.1+i.val)

def pathReads (st : ℤ × (ℤ → UInt8)) : List ℤ :=
  (List.range (strncpyReads (pathSource st) 256)).map fun i : ℕ => st.1+(i : ℤ)

section Code

variable {m : Type → Type} [Monad m] [Ata m]

def pwdLoopLog : ℕ → UInt32 → PathLog → m (Option PathLog)
  | fuel, dir, st =>
    if dir = 0 then pure (some st)
    else match fuel with
      | 0 => pure none
      | fuel+1 => do
        let node ← inodeRead dir
        pwdLoopLog fuel node.parent (pushNameLog node.nameStr st)

/-- The indices of the terminator, of the characters stored and of the characters
that `strncpy` reads, and the string returned. -/
def fsGetPwdLog (fuel : ℕ) (currentDir : UInt32) (tmp : ℤ → UInt8) :
    m (Option (List ℤ × List UInt8)) :=
  if currentDir = 0 then pure (some ([], [47]))
  else do
    let r ← pwdLoopLog fuel currentDir ([255], 255, Function.update tmp 255 0)
    pure (r.map fun st =>
      (pathReads st.2++st.1, cstr ((strncpy (pathSource st.2) 256).set 255 0)))

end Code

theorem foldr_pushCharLog (name : List UInt8) (st : PathLog) :
    (name.foldr pushCharLog st).2 = name.foldr pushChar st.2 := by
  induction name with
  | nil => rfl
  | cons c name ih => rw [List.foldr_cons, List.foldr_cons, pushCharLog, ih]

theorem pushNameLog_state (name : List UInt8) (st : PathLog) :
    (pushNameLog name st).2 = pushName name st.2 := by
  rw [pushNameLog, pushName, pushCharLog, foldr_pushCharLog]

theorem pwdLoopLog_state (fuel : ℕ) (dir : UInt32) (st : PathLog) (d : Disk) :
    ((pwdLoopLog fuel dir st : DiskM (Option PathLog)).run d).1.map Prod.snd =
      ((pwdLoop fuel dir st.2 : DiskM (Option (ℤ × (ℤ → UInt8)))).run d).1 := by
  induction fuel generalizing dir st with
  | zero =>
    unfold pwdLoopLog pwdLoop
    split_ifs <;> rfl
  | succ fuel ih =>
    unfold pwdLoopLog pwdLoop
    split_ifs
    · rfl
    · simp only [bind_run, inodeRead_run]
      rw [ih, pushNameLog_state]

theorem fsGetPwdLog_string (fuel : ℕ) (dir : UInt32) (tmp : ℤ → UInt8) (d : Disk) :
    ((fsGetPwdLog fuel dir tmp : DiskM (Option (List ℤ × List UInt8))).run d).1.map Prod.snd =
      ((fsGetPwd fuel dir tmp : DiskM (Option (List UInt8))).run d).1 := by
  unfold fsGetPwdLog fsGetPwd
  split_ifs
  · rfl
  · simp only [bind_run, pure_run]
    rw [← pwdLoopLog_state fuel dir ([255], 255, Function.update tmp 255 0) d]
    simp only [Option.map_map]
    rfl

theorem pwdLoopLog_run {d : Disk} {dir : UInt32} {l : List UInt32}
    (h : Chain (fun id => (d.inode id).parent) 0 dir l) (fuel : ℕ) (hf : l.length ≤ fuel)
    (st : PathLog) : (pwdLoopLog fuel dir st : DiskM (Option PathLog)).run d =
      (some (l.foldl (fun st id => pushNameLog (d.inode id).nameStr st) st), d) := by
  induction h generalizing fuel st with
  | root =>
    unfold pwdLoopLog
    rw [if_pos rfl]
    rfl
  | @up a l ne _ ih =>
    cases fuel with
    | zero => simp at hf
    | succ fuel =>
      unfold pwdLoopLog
      rw [if_neg ne, bind_run, inodeRead_run, List.foldl_cons]
      exact ih fuel (by simpa using hf) _

/-- The names from the root down to the first node of the chain, each after a '/'. -/
def Fs.pathOf (s : Fs) (l : List UInt32) : List UInt8 :=
  l.reverse.flatMap fun id => 47 :: (s.inode id).nameStr

/-- The buffer ends with `str` and its terminator, and exactly these cells were used. -/
structure Spells (st : PathLog) (str : List UInt8) : Prop where
  pos : st.2.1 = 255-str.length
  used : ∀ i, i ∈ st.1 ↔ st.2.1 ≤ i ∧ i ≤ 255
  text : ∀ k ≤ str.length, st.2.2 (st.2.1+k) = str.getD k 0

theorem spells_nil (tmp : ℤ → UInt8) : Spells ([255], 255, Function.update tmp 255 0) [] where
  pos := rfl
  used i := by
    rw [List.mem_singleton]
    change i = 255 ↔ 255 ≤ i ∧ i ≤ 255
    omega
  text k hk := by
    obtain rfl : k = 0 := Nat.le_zero.mp hk
    rfl

theorem Spells.pushChar {st : PathLog} {str : List UInt8} (h : Spells st str) (c : UInt8) :
    Spells (pushCharLog c st) (c :: str) where
  pos := by
    change st.2.1-1 = _
    rw [h.pos, List.length_cons]
    push_cast
    ring
  used i := by
    have top : st.2.1 ≤ 255 := by rw [h.pos]; omega
    change i ∈ (st.2.1-1) :: st.1 ↔ st.2.1-1 ≤ i ∧ i ≤ 255
    rw [List.mem_cons, h.used]
    omega
  text k hk := by
    change Function.update st.2.2 (st.2.1-1) c (st.2.1-1+k) = _
    cases k with
    | zero => simp
    | succ k =>
      have cell : st.2.1-1+((k+1 : ℕ) : ℤ) = st.2.1+k := by push_cast; ring
      rw [cell, Function.update_of_ne (by omega), List.getD_cons_succ]
      exact h.text k (by simpa using hk)

theorem Spells.pushName {st : PathLog} {str : List UInt8} (h : Spells st str)
    (name : List UInt8) : Spells (pushNameLog name st) (47 :: (name++str)) := by
  refine Spells.pushChar ?_ 47
  induction name with
  | nil => exact h
  | cons c name ih => exact ih.pushChar c

theorem Spells.path (s : Fs) (l : List UInt32) {st : PathLog} {str : List UInt8}
    (h : Spells st str) :
    Spells (l.foldl (fun st id => pushNameLog (s.inode id).nameStr st) st) (s.pathOf l++str) := by
  induction l generalizing st str with
  | nil => exact h
  | cons a l ih =>
    have hl := ih (h.pushName (s.inode a).nameStr)
    rw [List.foldl_cons]
    simpa [Fs.pathOf] using hl

theorem pathOf_noNul (s : Fs) (l : List UInt32) : 0 ∉ s.pathOf l := by
  intro h
  obtain ⟨id, _, hm⟩ := List.mem_flatMap.mp h
  rcases List.mem_cons.mp hm with h47 | hn
  · exact absurd h47 (by decide)
  · exact cstr_noNul _ hn

theorem cstr_set_zero (x : List UInt8) (n : ℕ) (hn : n < x.length) :
    cstr (x.set n 0) = (cstr x).take n := by
  induction x generalizing n with
  | nil => simp at hn
  | cons c x ih =>
    cases n with
    | zero => simp [cstr_cons]
    | succ n =>
      rw [List.set_cons_succ, cstr_cons, cstr_cons, ih n (by simpa using hn)]
      split_ifs <;> simp

theorem cstr_terminated {str : List UInt8} (noNul : 0 ∉ str) (rest : List UInt8) :
    cstr (str++0 :: rest) = str := by
  rw [cstr, List.takeWhile_append_of_pos]
  · simp
  · intro c hc
    have hne : c ≠ 0 := by rintro rfl; exact noNul hc
    simpa using hne

theorem Spells.source {st : PathLog} {str : List UInt8} (h : Spells st str) (noNul : 0 ∉ str)
    (fits : str.length ≤ 255) : cstr (pathSource st.2) = str := by
  have long : (pathSource st.2).length = 256 := List.length_ofFn
  have start : (pathSource st.2).take (str.length+1) = str++[0] := by
    apply List.ext_getElem
    · rw [List.length_take, long, List.length_append, List.length_singleton]
      omega
    · intro k hk _
      rw [List.length_take, long] at hk
      have hk' : k ≤ str.length := by omega
      rw [List.getElem_take]
      simp only [pathSource, List.getElem_ofFn]
      rw [h.text k hk']
      rcases hk'.lt_or_eq with hlt | rfl
      · rw [List.getElem_append_left hlt, List.getD_eq_getElem _ _ hlt]
      · rw [List.getElem_append_right le_rfl, List.getD_eq_default _ _ le_rfl]
        simp
  rw [← List.take_append_drop (str.length+1) (pathSource st.2), start, List.append_assoc]
  exact cstr_terminated noNul _

def Fs.pathLength (s : Fs) (l : List UInt32) : ℕ :=
  (l.map fun id => (s.inode id).nameStr.length+1).sum

theorem pathOf_length (s : Fs) (l : List UInt32) : (s.pathOf l).length = s.pathLength l := by
  rw [Fs.pathOf, List.length_flatMap, List.map_reverse, List.sum_reverse]
  rfl

/-- `fs_get_pwd` stays inside `tmp` and returns the path along the chain `l`. -/
def Fs.PathRight (s : Fs) (l : List UInt32) : Prop :=
  ∀ tmp fuel, l.length ≤ fuel → ∃ log,
    (fsGetPwdLog fuel s.dir tmp : DiskM (Option (List ℤ × List UInt8))).run s.disk =
      (some (log, if s.dir = 0 then [47] else s.pathOf l), s.disk) ∧
    ∀ i ∈ log, 0 ≤ i ∧ i ≤ 255

theorem pathRight_root {s : Fs} (l : List UInt32) (h0 : s.dir = 0) : s.PathRight l := by
  intro tmp fuel _
  refine ⟨[], ?_, by simp⟩
  unfold fsGetPwdLog
  rw [if_pos h0, if_pos h0]
  rfl

/-- The run below the root: the cells it has used begin where the path does. -/
theorem getPwdLog_below {s : Fs} {l : List UInt32} (h : Chain s.parentOf 0 s.dir l)
    (ne : s.dir ≠ 0) (tmp : ℤ → UInt8) : ∃ st, Spells st (s.pathOf l) ∧ ∀ fuel, l.length ≤ fuel →
      (fsGetPwdLog fuel s.dir tmp : DiskM (Option (List ℤ × List UInt8))).run s.disk =
        (some (pathReads st.2++st.1, cstr ((strncpy (pathSource st.2) 256).set 255 0)),
          s.disk) := by
  have spelled := Spells.path s l (spells_nil tmp)
  rw [List.append_nil] at spelled
  refine ⟨_, spelled, fun fuel hf => ?_⟩
  unfold fsGetPwdLog
  rw [if_neg ne, bind_run, pwdLoopLog_run h fuel hf, pure_run]
  rfl

theorem Spells.reads {st : PathLog} {str : List UInt8} (h : Spells st str) (noNul : 0 ∉ str)
    (fits : str.length ≤ 255) {i : ℤ} (hi : i ∈ pathReads st.2++st.1) : 0 ≤ i ∧ i ≤ 255 := by
  have hp := h.pos
  rcases List.mem_append.mp hi with hr | hu
  · obtain ⟨k, hk, rfl⟩ := List.mem_map.mp hr
    rw [List.mem_range, strncpyReads, strlen_eq, h.source noNul fits] at hk
    omega
  · have := (h.used i).mp hu
    omega

theorem Spells.copied {st : PathLog} {str : List UInt8} (h : Spells st str) (noNul : 0 ∉ str)
    (fits : str.length ≤ 255) :
    cstr ((strncpy (pathSource st.2) 256).set 255 0) = str := by
  rw [cstr_set_zero _ _ (by rw [strncpy_length]; decide), cstr_strncpy, h.source noNul fits,
    List.take_take, List.take_of_length_le (by simpa using fits)]

theorem pathRight_iff {s : Fs} {l : List UInt32} (h : Chain s.parentOf 0 s.dir l) :
    s.PathRight l ↔ s.pathLength l ≤ 255 := by
  rw [← pathOf_length]
  by_cases h0 : s.dir = 0
  · refine iff_of_true (pathRight_root l h0) ?_
    rw [h0] at h
    rw [h.unique .root]
    exact Nat.zero_le _
  constructor
  · -- the first character of the path is stored at 255 less its length
    intro right
    obtain ⟨st, spelled, run⟩ := getPwdLog_below h h0 fun _ => 0
    obtain ⟨log, ran, inside⟩ := right (fun _ => 0) l.length le_rfl
    rw [run l.length le_rfl] at ran
    have hlog : pathReads st.2++st.1 = log :=
      congrArg Prod.fst (Option.some.inj (congrArg Prod.fst ran))
    have hp := spelled.pos
    have low : st.2.1 ∈ log := by
      rw [← hlog]
      exact List.mem_append_right _ ((spelled.used _).mpr ⟨le_rfl, by omega⟩)
    have nonneg := (inside _ low).1
    omega
  · intro fits tmp fuel hf
    obtain ⟨st, spelled, run⟩ := getPwdLog_below h h0 tmp
    have noNul := pathOf_noNul s l
    refine ⟨_, ?_, fun i hi => spelled.reads noNul fits hi⟩
    rw [run fuel hf, spelled.copied noNul fits, if_neg h0]

/-- In every state there is one way up from `current_dir`, and the path along it is
built inside the buffer and returned whole exactly when it fits. -/
theorem getPwd_path_iff {s : Fs} (h : Reachable anyCall s) :
    ∃ l, Chain s.parentOf 0 s.dir l ∧ (∀ id ∈ l, s.IsDir id) ∧
      (s.PathRight l ↔ s.pathLength l ≤ 255) := by
  obtain ⟨l, hl⟩ := reachable_ancestors h
  exact ⟨l, hl.chain, hl.isDir, pathRight_iff hl.chain⟩

theorem getPwd_path_iff_insideD : ∃ l, Chain insideD.parentOf 0 insideD.dir l ∧
    (∀ id ∈ l, insideD.IsDir id) ∧ (insideD.PathRight l ↔ insideD.pathLength l ≤ 255) :=
  getPwd_path_iff (reachable_runOps freshFs_reachable _)

def deepName : CString := ⟨List.replicate 27 97, by decide⟩

/-- Directories of that name nested `n` deep, entered one after the other. -/
def nested : ℕ → Fs
  | 0 => freshFs
  | n+1 => runOps [.mkdir deepName, .changeDir deepName] (nested n)

def nestedTable : ℕ → UInt32 → Inode
  | 0, _ => Inode.zero
  | n+1, j =>
    if j = UInt32.ofNat (n+1) then newDir (UInt32.ofNat n) deepName else nestedTable n j

theorem nested_reachable (n : ℕ) : Reachable anyCall (nested n) := by
  induction n with
  | zero => exact freshFs_reachable
  | succ n ih => exact reachable_runOps ih _

theorem nestedTable_scans : ∀ n < 10, scanName (nestedTable n) deepName (UInt32.ofNat n) = 0 ∧
    scanFree (nestedTable n) = UInt32.ofNat (n+1) ∧
    scanName (nestedTable (n+1)) deepName (UInt32.ofNat n) = UInt32.ofNat (n+1) := by
  decide +kernel

theorem ofNat_ne_zero {n : ℕ} (h : n < 10) : UInt32.ofNat (n+1) ≠ 0 := by
  rw [Ne, ← UInt32.toNat_inj, UInt32.toNat_ofNat_of_lt' (show n+1 < 4294967296 by omega)]
  exact Nat.succ_ne_zero n

theorem nested_state : ∀ n ≤ 10, (∀ j, (nested n).inode j = nestedTable n j) ∧
    (nested n).dir = UInt32.ofNat n := by
  intro n
  induction n with
  | zero => exact fun _ => ⟨freshFs_inode, freshFs_dir⟩
  | succ n ih =>
    intro hn
    obtain ⟨table, dir⟩ := ih (by omega)
    obtain ⟨absent, free, found⟩ := nestedTable_scans n (by omega)
    have ne := ofNat_ne_zero (show n < 10 by omega)
    have ok : (exec (.mkdir deepName) (nested n)).1 = 0 := by
      rw [mkdir_ok_iff, lookup_scan table, freeInode_scan table, dir, absent, free]
      exact ⟨rfl, ne⟩
    have made (j : UInt32) : (exec (.mkdir deepName) (nested n)).2.inode j =
        nestedTable (n+1) j := by
      rw [mkdir_table ok, freeInode_scan table, free, table, dir]
      rfl
    have look : (exec (.mkdir deepName) (nested n)).2.disk.lookup deepName
        (exec (.mkdir deepName) (nested n)).2.dir = UInt32.ofNat (n+1) := by
      rw [lookup_scan made, mkdir_dir, dir, found]
    have enter := @changeDir_enter (exec (.mkdir deepName) (nested n)).2 deepName (by decide)
    have isDir : (nestedTable (n+1) (UInt32.ofNat (n+1))).isDirectory ≠ 0 := by
      rw [nestedTable, if_pos rfl]
      exact (by decide : (1 : UInt8) ≠ 0)
    rw [look, made] at enter
    rw [nested, runOps_cons, runOps_cons, runOps_nil]
    refine ⟨fun j => ?_, enter ne isDir⟩
    rw [changeDir_inode, made]

theorem nestedTable_parent : ∀ n < 10, ∀ m ≤ n,
    (nestedTable (n+1) (UInt32.ofNat (m+1))).parent = UInt32.ofNat m := by
  decide +kernel

def nestedIds : ℕ → List UInt32
  | 0 => []
  | n+1 => UInt32.ofNat (n+1) :: nestedIds n

theorem nested_chain (n : ℕ) (hn : n ≤ 10) (m : ℕ) (hm : m ≤ n) :
    Chain (nested n).parentOf 0 (UInt32.ofNat m) (nestedIds m) := by
  induction m with
  | zero => exact .root
  | succ m ih =>
    refine .up (ofNat_ne_zero (by omega)) ?_
    have above : (nested n).parentOf (UInt32.ofNat (m+1)) = UInt32.ofNat m := by
      rw [Fs.parentOf, (nested_state n hn).1]
      cases n with
      | zero => omega
      | succ n => exact nestedTable_parent n (by omega) m (by omega)
    rw [above]
    exact ih (by omega)

/-- Ten directories deep the path has 280 bytes, and its first characters are
written below the buffer. -/
theorem getPwd_underflow : ∃ s, Reachable anyCall s ∧
    ∀ l, Chain s.parentOf 0 s.dir l → ¬s.PathRight l := by
  refine ⟨nested 10, nested_reachable 10, fun l hl => ?_⟩
  obtain ⟨table, dir⟩ := nested_state 10 le_rfl
  have chain := nested_chain 10 le_rfl 10 le_rfl
  rw [← dir] at chain
  have long : (nested 10).pathLength (nestedIds 10) = 280 := by
    simp only [Fs.pathLength, table]
    decide +kernel
  rw [hl.unique chain, pathRight_iff chain, long]
  decide

end TinyOS.NanoFS
