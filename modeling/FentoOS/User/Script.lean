import FentoOS.User.Pipeline

/-!
# Scripts

`main` runs a script line by line through one buffer.  `read_fd_line` reads byte
by byte up to a newline, up to the end of the buffer, or up to the end of the
file.  The first two exits terminate the line; the third one returns without a
terminator, so that what `execute_line` gets is the last line and whatever the
buffer holds behind it, from an earlier line or from before the first one.

`execute_line` cuts the buffer in place, and it ends the script when it runs
`exit`.  The strings it is called with are compared with `scriptLines`, which is
about the file alone.
-/

namespace FentoOS.Shell

open FentoOS.Lib FentoOS.Libc

def maxLine : Nat := 512

def cr : UInt8 := '\r'.toUInt8

def lf : UInt8 := '\n'.toUInt8

/-! ## The code -/

/-- The loop of `read_fd_line`, on the bytes of the file that are not yet read. -/
def readLoop (max : Nat) (file : List UInt8) (n : Nat) (seen : Bool) (line : Bytes) :
    Int × Bytes × List UInt8 :=
  if n < max - 1 then
    match file with
    | [] => (if seen then n else -1, line, [])
    | c :: file =>
      if c = cr then readLoop max file n true line
      else if c = lf then (n, line.put8 n 0, file)
      else readLoop max file (n + 1) true (line.put8 n c)
  else (n, line.put8 n 0, file)
  termination_by structural file

/-- `read_fd_line`: what it returns, the buffer, and the bytes that are left. -/
def readFdLine (file : List UInt8) (line : Bytes) (max : Nat) : Int × Bytes × List UInt8 :=
  readLoop max file 0 false line

/-- What the shell keeps from line to line: the buffer, and the operators of `tokenize`. -/
structure State where
  line : Bytes
  ops : Bytes
  opidx : Nat

/-- What `execute_line` does besides its output: it returns, with the commands run by children, or
it exits. -/
inductive Outcome
  | returns (code : Int) (children : List Cmd)
  | exits (status : Int32)
  deriving DecidableEq, Repr

def Outcome.isExit : Outcome → Bool
  | .returns _ _ => false
  | .exits _ => true

/-- `run_pipeline`, with what `execute_line` returns behind it. -/
def Outcome.ofCmds (cmds : List Cmd) : Outcome :=
  match cmds with
  | [c] =>
    match builtin c with
    | .exits status => .exits status
    | _ => .returns 0 (runPipeline cmds)
  | cmds => .returns 0 (runPipeline cmds)

/-- `execute_line(line)`. -/
def executeLine (sh : State) : State × Outcome :=
  let p := skipWhile isSpace sh.line maxLine 0
  if sh.line p = 0 ∨ sh.line p = '#'.toUInt8 then (sh, .returns 0 [])
  else if strIn (sh.line.shift p) maxLine = ['h', 'e', 'l', 'p'].map Char.toUInt8 then
    (sh, .returns 0 [])
  else
    let L := tokenize maxLine sh.line p sh.ops sh.opidx (maxArgs * 2)
    (⟨L.line, L.ops, L.opidx⟩,
      if L.tokens = [] then .returns 0 []
      else
        match parsePipeline (L.tokens.map (L.text maxLine)) maxCmds with
        | none => .returns 2 []
        | some cmds => .ofCmds cmds)

/-- The loop of `main` that runs a script: the strings that `execute_line` is called with, each with
whether it exits.  A call of `read_fd_line` that does not end the loop takes a byte at least from
the file. -/
def scriptLoop : Nat → List UInt8 → State → List (Text × Bool)
  | 0, _, _ => []
  | k + 1, file, sh =>
    let (n, line, rest) := readFdLine file sh.line maxLine
    if n < 0 then []
    else if 0 < n then
      let (sh', outcome) := executeLine { sh with line := line }
      (strIn line maxLine, outcome.isExit) ::
        (if outcome.isExit then [] else scriptLoop k rest sh')
    else scriptLoop k rest { sh with line := line }

/-- The calls of `execute_line` for a script. -/
def scriptCalls (file : List UInt8) (sh : State) : List (Text × Bool) :=
  scriptLoop (file.length + 1) file sh

/-! ## The lines of a file -/

/-- A line longer than `n` bytes is cut into pieces of `n`. -/
def cut (n : Nat) (s : Text) : List Text :=
  if s.length ≤ n ∨ n = 0 then [s] else s.take n :: cut n (s.drop n)
  termination_by s.length
  decreasing_by rw [List.length_drop]; omega

/-- The lines of a file with carriage returns removed; the last one has no newline. -/
def fileLines (file : List UInt8) : List Text := (file.filter (· != cr)).splitOn lf

/-- The non-empty lines, the long ones cut into pieces. -/
def scriptLines (file : List UInt8) : List Text :=
  ((fileLines file).flatMap (cut (maxLine - 1))).filter (· ≠ [])

/-- The strings are the lines; they end early only if a line exits. -/
structure AsWritten (calls : List (Text × Bool)) (lines : List Text) : Prop where
  inOrder : calls.map Prod.fst <+: lines
  complete : calls.map Prod.fst = lines ∨ ∃ call ∈ calls.getLast?, call.2 = true

/-- The last line has no newline behind it, and it does not fill the buffer either. -/
def openEnded (file : List UInt8) : Bool :=
  ((fileLines file).getLast?.getD []).length % (maxLine - 1) != 0

/-- No line contains a zero byte, and if the last one is not terminated by the file, it is by the
buffer: there is a zero byte behind it, as the earlier lines have left the buffer.  Nothing is asked
of the lines behind one that exits. -/
def Terminated (isOpen : Bool) : List Text → State → Prop
  | [], _ => True
  | l :: ls, sh =>
    IsCString l ∧ (isOpen = true → ls = [] → sh.line l.length = 0) ∧
      ((executeLine { sh with line := strcpy sh.line l }).2.isExit = false →
        Terminated isOpen ls (executeLine { sh with line := strcpy sh.line l }).1)

/-! ## One line of the code -/

/-- Why `read_fd_line` stops. -/
inductive Stop
  | newline
  | full
  | endOfFile
  deriving DecidableEq

/-- From the file `read_fd_line` puts the characters `s` into the buffer, which has room for so
many; why it stops, and what is left of the file. -/
inductive Reads : Nat → List UInt8 → Text → Stop → List UInt8 → Prop
  | full (file : List UInt8) : Reads 0 file [] .full file
  | endOfFile (room : Nat) : Reads (room + 1) [] [] .endOfFile []
  | newline (room : Nat) (file : List UInt8) : Reads (room + 1) (lf :: file) [] .newline file
  | skip {room : Nat} {file : List UInt8} {s : Text} {stop : Stop} {rest : List UInt8} :
      Reads (room + 1) file s stop rest → Reads (room + 1) (cr :: file) s stop rest
  | char {room : Nat} {file : List UInt8} {s : Text} {stop : Stop} {rest : List UInt8} {c : UInt8} :
      c ≠ cr → c ≠ lf → Reads room file s stop rest →
        Reads (room + 1) (c :: file) (c :: s) stop rest

theorem exists_reads (room : Nat) (file : List UInt8) :
    ∃ s stop rest, Reads room file s stop rest := by
  induction file generalizing room with
  | nil =>
    cases room with
    | zero => exact ⟨_, _, _, .full _⟩
    | succ room => exact ⟨_, _, _, .endOfFile room⟩
  | cons c file ih =>
    cases room with
    | zero => exact ⟨_, _, _, .full _⟩
    | succ room =>
      by_cases hcr : c = cr
      · obtain ⟨s, stop, rest, h⟩ := ih (room + 1)
        exact ⟨s, stop, rest, hcr ▸ h.skip⟩
      by_cases hlf : c = lf
      · subst hlf
        exact ⟨_, _, _, .newline room file⟩
      · obtain ⟨s, stop, rest, h⟩ := ih room
        exact ⟨_, _, _, h.char hcr hlf⟩

/-- The buffer with characters put into it from `n` on. -/
def putText (line : Bytes) (n : Nat) (s : Text) : Bytes := line.memcpy n (cstr s) 0 s.length

theorem putText_nil (line : Bytes) (n : Nat) : putText line n [] = line := by
  funext j
  exact Bytes.memcpy_of_notMem _ _ (by rw [List.length_nil]; omega)

theorem putText_cons (line : Bytes) (n : Nat) (c : UInt8) (s : Text) :
    putText (line.put8 n c) (n + 1) s = putText line n (c :: s) := by
  funext j
  unfold putText
  rw [List.length_cons]
  by_cases hj : n + 1 ≤ j ∧ j < n + 1 + s.length
  · rw [Bytes.memcpy_of_mem _ _ hj.1 hj.2, Bytes.memcpy_of_mem _ _ (by omega) (by omega)]
    have hindex : 0 + (j - n) = 0 + (j - (n + 1)) + 1 := by omega
    rw [hindex]
    rfl
  · rw [Bytes.memcpy_of_notMem _ _ (by omega)]
    by_cases hn : j = n
    · subst hn
      rw [Bytes.put8_same, Bytes.memcpy_of_mem _ _ le_rfl (by omega), Nat.sub_self]
      rfl
    · rw [Bytes.put8_of_ne _ _ hn, Bytes.memcpy_of_notMem _ _ (by omega)]

/-- The terminator makes it a copy of the string. -/
theorem put8_putText (line : Bytes) (s : Text) :
    (putText line 0 s).put8 s.length 0 = strcpy line s := by
  funext j
  unfold putText
  rcases Nat.lt_trichotomy j s.length with hlt | rfl | hgt
  · rw [Bytes.put8_of_ne _ _ hlt.ne, Bytes.memcpy_of_mem _ _ (Nat.zero_le _) (by omega),
      strcpy_of_le _ _ hlt.le, Nat.zero_add, Nat.sub_zero]
  · rw [Bytes.put8_same, strcpy_of_le _ _ le_rfl, cstr_of_le le_rfl]
  · rw [Bytes.put8_of_ne _ _ hgt.ne', Bytes.memcpy_of_notMem _ _ (by omega), strcpy_of_lt _ _ hgt]

/-- The exits of `read_fd_line`: the end of the file alone leaves the line without a terminator. -/
def Stop.finish : Stop → Bool → Nat → Bytes → Int × Bytes
  | .endOfFile, seen, n, line => (if seen then n else -1, line)
  | _, _, n, line => (n, line.put8 n 0)

variable {room n : Nat} {file rest : List UInt8} {s : Text} {stop : Stop}

theorem readLoop_eq {max : Nat} (h : Reads room file s stop rest) (hroom : n + room = max - 1)
    (seen : Bool) (line : Bytes) : readLoop max file n seen line =
      ((stop.finish (seen || !file.isEmpty) (n + s.length) (putText line n s)).1,
        (stop.finish (seen || !file.isEmpty) (n + s.length) (putText line n s)).2, rest) := by
  induction h generalizing n seen line with
  | full file =>
    rw [readLoop.eq_def, if_neg (by omega), putText_nil]
    rfl
  | endOfFile room =>
    rw [readLoop, if_pos (by omega), putText_nil, List.isEmpty_nil, Bool.not_true, Bool.or_false]
    rfl
  | newline room file =>
    rw [readLoop, if_pos (by omega), putText_nil]
    rfl
  | skip _ ih =>
    rw [readLoop, if_pos (by omega), List.isEmpty_cons, Bool.not_false, Bool.or_true]
    change readLoop _ _ _ _ _ = _
    rw [ih hroom, Bool.true_or]
  | char hcr hlf _ ih =>
    rw [readLoop, if_pos (by omega), List.isEmpty_cons, Bool.not_false, Bool.or_true]
    rw [if_neg hcr, if_neg hlf, ih (by omega), Bool.true_or, putText_cons, List.length_cons,
      Nat.add_right_comm, Nat.add_assoc]

/-- `read_fd_line` on the buffer of `main`. -/
theorem readFdLine_eq (h : Reads (maxLine - 1) file s stop rest) (line : Bytes) :
    readFdLine file line maxLine =
      ((stop.finish (!file.isEmpty) s.length (putText line 0 s)).1,
        (stop.finish (!file.isEmpty) s.length (putText line 0 s)).2, rest) := by
  rw [readFdLine, readLoop_eq h (Nat.zero_add _), Bool.false_or, Nat.zero_add]

/-! ## One line of the file -/

/-- The part of the file that is read. -/
theorem Reads.split (h : Reads room file s stop rest) : ∃ a, s = a.filter (· != cr) ∧ lf ∉ a ∧
      file = a ++ if stop = .newline then lf :: rest else rest := by
  induction h with
  | full file => exact ⟨[], rfl, List.not_mem_nil, rfl⟩
  | endOfFile room => exact ⟨[], rfl, List.not_mem_nil, rfl⟩
  | newline room file => exact ⟨[], rfl, List.not_mem_nil, rfl⟩
  | skip _ ih =>
    obtain ⟨a, rfl, hlf, rfl⟩ := ih
    refine ⟨cr :: a, rfl, fun hmem ↦ ?_, rfl⟩
    rcases List.mem_cons.mp hmem with h | h
    · cases h
    · exact hlf h
  | char hcr hlf _ ih =>
    obtain ⟨a, rfl, hlf', rfl⟩ := ih
    refine ⟨_ :: a, ?_, fun hmem ↦ ?_, rfl⟩
    · exact (List.filter_cons_of_pos (by simpa using hcr)).symm
    · rcases List.mem_cons.mp hmem with h | h
      · exact hlf h.symm
      · exact hlf' h

theorem Reads.length (h : Reads room file s stop rest) :
    s.length ≤ room ∧ (stop = .full ↔ s.length = room) ∧
      (stop = .endOfFile → rest = []) := by
  induction h with
  | full file => exact ⟨le_rfl, by simp, nofun⟩
  | endOfFile room => exact ⟨Nat.zero_le _, by simp, fun _ ↦ rfl⟩
  | newline room file => exact ⟨Nat.zero_le _, by simp, nofun⟩
  | skip _ ih => exact ih
  | char _ _ _ ih =>
    rw [List.length_cons, Nat.add_right_cancel_iff]
    exact ⟨Nat.succ_le_succ ih.1, ih.2⟩

theorem fileLines_ne_nil (file : List UInt8) : fileLines file ≠ [] := List.splitOnP_ne_nil _ _

section

variable {a : List UInt8} (ha : lf ∉ a)

include ha

theorem lf_notMem_filter : lf ∉ a.filter (· != cr) := fun hmem ↦ ha (List.mem_of_mem_filter hmem)

theorem fileLines_newline (rest : List UInt8) :
    fileLines (a ++ lf :: rest) = a.filter (· != cr) :: fileLines rest := by
  have hsingle : (a.filter (· != cr)).splitOn lf = [a.filter (· != cr)] :=
    List.splitOn_eq_singleton (lf_notMem_filter ha)
  rw [fileLines, List.filter_append, List.filter_cons_of_pos (by decide), List.splitOn,
    List.splitOnP_append_cons (p := (· == lf)) _ _ BEq.rfl, ← List.splitOn, hsingle]
  rfl

theorem fileLines_single : fileLines a = [a.filter (· != cr)] :=
  List.splitOn_eq_singleton (lf_notMem_filter ha)

theorem fileLines_append (rest : List UInt8) : ∃ l ls, fileLines rest = l :: ls ∧
    fileLines (a ++ rest) = (a.filter (· != cr) ++ l) :: ls := by
  obtain ⟨l, ls, hls⟩ := List.exists_cons_of_ne_nil (fileLines_ne_nil rest)
  refine ⟨l, ls, hls, ?_⟩
  have hnot := lf_notMem_filter ha
  rw [fileLines, List.filter_append]
  generalize a.filter (· != cr) = b at hnot
  induction b with
  | nil => exact hls
  | cons c b ih =>
    have hc : (c == lf) = false := beq_eq_false_iff_ne.mpr fun h ↦ hnot (h ▸ List.mem_cons_self)
    have ih' := ih fun hmem ↦ hnot (List.mem_cons_of_mem c hmem)
    rw [List.cons_append, List.splitOn, List.splitOnP_cons_eq_if_modifyHead, hc,
      if_neg Bool.false_ne_true, ← List.splitOn, ih']
    rfl

end

/-! ### Pieces -/

theorem cut_of_le (h : s.length ≤ n) : cut n s = [s] := by
  rw [cut, if_pos (.inl h)]

/-- A line that begins with a full piece. -/
theorem filter_cut_append (hn : n ≠ 0) (hs : s.length = n) (t : Text) :
    (cut n (s ++ t)).filter (· ≠ []) = s :: (cut n t).filter (· ≠ []) := by
  have hne : s ≠ [] := fun h ↦ hn (hs ▸ congrArg List.length h)
  cases t with
  | nil =>
    rw [List.append_nil, cut_of_le hs.le, cut_of_le (Nat.zero_le n)]
    simp [hne]
  | cons c t =>
    have hlong : ¬((s ++ c :: t).length ≤ n ∨ n = 0) := by
      rw [List.length_append, List.length_cons]
      omega
    rw [cut, if_neg hlong, ← hs, List.take_left, List.drop_left, hs,
      List.filter_cons_of_pos (by simpa using hne)]

theorem cut_flatten (n : Nat) (s : Text) : (cut n s).flatten = s := by
  fun_induction cut n s with
  | case1 s h => exact List.append_nil s
  | case2 s h ih => rw [List.flatten_cons, ih, List.take_append_drop]

/-- A line that is not empty has a piece. -/
theorem filter_cut_ne_nil (n : Nat) (hs : s ≠ []) : (cut n s).filter (· ≠ []) ≠ [] := by
  intro hnil
  apply hs
  rw [← cut_flatten n s]
  refine List.flatten_eq_nil_iff.mpr fun t ht ↦ ?_
  by_contra hne
  have hmem : t ∈ (cut n s).filter (· ≠ []) := List.mem_filter.mpr ⟨ht, by simpa using hne⟩
  rw [hnil] at hmem
  cases hmem

variable {l : Text} {ls : List Text}

theorem scriptLines_cons (h : fileLines file = l :: ls) :
    scriptLines file = (cut (maxLine - 1) l).filter (· ≠ []) ++
      (ls.flatMap (cut (maxLine - 1))).filter (· ≠ []) := by
  rw [scriptLines, h, List.flatMap_cons, List.filter_append]

theorem scriptLines_nil : scriptLines [] = [] := by
  rw [scriptLines_cons (fileLines_single List.not_mem_nil), cut_of_le (Nat.zero_le _)]
  rfl

/-- The line read and the lines of the rest of the file are the lines of the file. -/
theorem Reads.scriptLines_eq (h : Reads (maxLine - 1) file s stop rest) :
    scriptLines file = [s].filter (· ≠ []) ++ scriptLines rest := by
  obtain ⟨a, rfl, ha, hfile⟩ := h.split
  obtain ⟨hle, hfull, hend⟩ := h.length
  cases stop with
  | newline =>
    rw [if_pos rfl] at hfile
    rw [hfile, scriptLines_cons (fileLines_newline ha rest), cut_of_le hle]
    rfl
  | full =>
    rw [if_neg (by decide)] at hfile
    have hlength := hfull.mp rfl
    obtain ⟨l, ls, hrest, hall⟩ := fileLines_append ha rest
    have hne : a.filter (· != cr) ≠ [] := fun hnil ↦ by
      rw [hnil] at hlength
      cases hlength
    rw [hfile, scriptLines_cons hall, scriptLines_cons hrest,
      filter_cut_append (by decide) hlength, List.filter_cons_of_pos (by simpa using hne)]
    rfl
  | endOfFile =>
    rw [if_neg (by decide), hend rfl, List.append_nil] at hfile
    rw [hend rfl, scriptLines_nil, hfile, scriptLines_cons (fileLines_single ha), cut_of_le hle]
    rfl

theorem getLast?_cons_of_ne_nil (h : ls ≠ []) : (l :: ls).getLast? = ls.getLast? := by
  obtain ⟨l', ls', rfl⟩ := List.exists_cons_of_ne_nil h
  rfl

theorem Reads.openEnded_eq (h : Reads (maxLine - 1) file s stop rest) :
    openEnded file = if stop = .endOfFile then s != [] else openEnded rest := by
  obtain ⟨a, rfl, ha, hfile⟩ := h.split
  obtain ⟨hle, hfull, hend⟩ := h.length
  cases stop with
  | newline =>
    rw [if_pos rfl] at hfile
    rw [if_neg (by decide), hfile, openEnded, fileLines_newline ha,
      getLast?_cons_of_ne_nil (fileLines_ne_nil rest)]
    rfl
  | full =>
    rw [if_neg (by decide)] at hfile
    have hlength := hfull.mp rfl
    obtain ⟨l, ls, hrest, hall⟩ := fileLines_append ha rest
    rw [if_neg (by decide), hfile, openEnded, openEnded, hall, hrest]
    by_cases hls : ls = []
    · subst hls
      change ((a.filter (· != cr) ++ l).length % _ != 0) = (l.length % _ != 0)
      rw [List.length_append, hlength, Nat.add_mod_left]
    · rw [getLast?_cons_of_ne_nil hls, getLast?_cons_of_ne_nil hls]
  | endOfFile =>
    rw [if_neg (by decide), hend rfl, List.append_nil] at hfile
    have hlt := lt_of_le_of_ne hle fun heq ↦ absurd (hfull.mpr heq) (by decide)
    rw [if_pos rfl, hfile, openEnded, fileLines_single ha]
    change ((a.filter (· != cr)).length % _ != 0) = _
    rw [Nat.mod_eq_of_lt hlt]
    cases a.filter (· != cr) <;> rfl

/-- A file with an open end has a line. -/
theorem scriptLines_ne_nil (h : openEnded file = true) : scriptLines file ≠ [] := by
  have hne := fileLines_ne_nil file
  have hlast : (fileLines file).getLast hne ≠ [] := by
    intro hnil
    rw [openEnded, List.getLast?_eq_getLast_of_ne_nil hne, Option.getD_some, hnil] at h
    cases h
  have hpiece := filter_cut_ne_nil (maxLine - 1) hlast
  obtain ⟨t, ts, ht⟩ := List.exists_cons_of_ne_nil hpiece
  have hmem := List.mem_filter.mp (ht ▸ List.mem_cons_self : t ∈ _)
  refine List.ne_nil_of_mem (a := t) (List.mem_filter.mpr ⟨?_, hmem.2⟩)
  exact List.mem_flatMap.mpr ⟨_, List.getLast_mem hne, hmem.1⟩

/-! ## The string that is passed -/

/-- A line that is terminated is passed as it is, unless there is a zero byte in it. -/
theorem strIn_strcpy (line : Bytes) (hs : s.length < maxLine) :
    strIn (strcpy line s) maxLine = s ↔ IsCString s := by
  constructor
  · intro h
    rw [← h]
    exact strIn_isCString _ _
  · intro h
    exact (strcpy_holdsStr line s).strIn_eq h hs.le

/-- A line that is not terminated is passed as it is if there is a zero byte behind it. -/
theorem strIn_putText (line : Bytes) (hs : s.length < maxLine) :
    strIn (putText line 0 s) maxLine = s ↔ IsCString s ∧ line s.length = 0 := by
  have hbehind : putText line 0 s s.length = line s.length :=
    Bytes.memcpy_of_notMem _ _ (.inr (Nat.zero_add _).le)
  constructor
  · intro h
    have hend := strIn_terminator (a := putText line 0 s) (n := maxLine) (by rwa [h])
    rw [h, hbehind] at hend
    exact ⟨h ▸ strIn_isCString _ _, hend⟩
  · rintro ⟨hcstr, hzero⟩
    have hheld : HoldsStr (putText line 0 s) s := by
      intro j hj
      rcases hj.lt_or_eq with hlt | rfl
      · rw [putText, Bytes.memcpy_of_mem _ _ (Nat.zero_le _) (by omega), Nat.zero_add, Nat.sub_zero]
      · rw [hbehind, hzero, cstr_of_le le_rfl]
    exact hheld.strIn_eq hcstr hs.le

/-! ## The calls -/

theorem asWritten_nil (lines : List Text) : AsWritten [] lines ↔ lines = [] := by
  constructor
  · intro h
    rcases h.complete with heq | ⟨call, hcall, -⟩
    · exact heq.symm
    · cases hcall
  · rintro rfl
    exact ⟨List.prefix_rfl, .inl rfl⟩

/-- One call, with the calls behind it unless it exits. -/
theorem asWritten_cons (t l : Text) (ls : List Text) (exits : Bool) (calls : List (Text × Bool)) :
    AsWritten ((t, exits) :: if exits then [] else calls) (l :: ls) ↔
      t = l ∧ (exits = false → AsWritten calls ls) := by
  cases exits with
  | true =>
    simp only [if_true]
    constructor
    · intro h
      exact ⟨(List.cons_prefix_cons.mp h.inOrder).1, nofun⟩
    · rintro ⟨rfl, -⟩
      exact ⟨List.cons_prefix_cons.mpr ⟨rfl, List.nil_prefix⟩, .inr ⟨_, rfl, rfl⟩⟩
  | false =>
    simp only [Bool.false_eq_true, if_false, true_implies]
    constructor
    · intro h
      obtain ⟨rfl, horder⟩ := List.cons_prefix_cons.mp h.inOrder
      refine ⟨rfl, horder, ?_⟩
      rcases h.complete with heq | ⟨call, hcall, hexits⟩
      · exact .inl (List.cons.inj heq).2
      · cases calls with
        | nil => cases hcall; cases hexits
        | cons call' calls => exact .inr ⟨call, hcall, hexits⟩
    · rintro ⟨rfl, h⟩
      refine ⟨List.cons_prefix_cons.mpr ⟨rfl, h.inOrder⟩, ?_⟩
      rcases h.complete with heq | ⟨call, hcall, hexits⟩
      · exact .inl (congrArg _ heq)
      · cases calls with
        | nil => cases hcall
        | cons call' calls => exact .inr ⟨call, hcall, hexits⟩

/-- An empty line writes the first byte of the buffer, which the next line overwrites. -/
theorem terminated_put8 {isOpen : Bool} (hls : ∀ l ∈ ls, l ≠ []) (sh : State) :
    Terminated isOpen ls { sh with line := sh.line.put8 0 0 } ↔ Terminated isOpen ls sh := by
  cases ls with
  | nil => exact Iff.rfl
  | cons l ls =>
    have hpos : 0 < l.length := List.length_pos_of_ne_nil (hls l List.mem_cons_self)
    have hcopy : strcpy (sh.line.put8 0 0) l = strcpy sh.line l := by
      funext j
      rcases Nat.lt_or_ge l.length j with hj | hj
      · rw [strcpy_of_lt _ _ hj, strcpy_of_lt _ _ hj, Bytes.put8_of_ne _ _ (by omega)]
      · rw [strcpy_of_le _ _ hj, strcpy_of_le _ _ hj]
    have hbehind : sh.line.put8 0 0 l.length = sh.line l.length :=
      Bytes.put8_of_ne _ _ hpos.ne'
    simp only [Terminated, hcopy, hbehind]

theorem ne_nil_of_mem_scriptLines (h : l ∈ scriptLines file) : l ≠ [] := by
  simpa using (List.mem_filter.mp h).2

/-- What is left of the file gets shorter. -/
theorem Reads.rest_length (h : Reads (room + 1) file s stop rest) (hne : file ≠ []) :
    rest.length < file.length := by
  obtain ⟨a, rfl, -, hfile⟩ := h.split
  obtain ⟨-, hfull, hend⟩ := h.length
  cases stop with
  | newline =>
    rw [hfile, if_pos rfl, List.length_append, List.length_cons]
    omega
  | full =>
    have hlength := hfull.mp rfl
    have hle := List.length_filter_le (· != cr) a
    rw [hfile, if_neg (by decide), List.length_append]
    omega
  | endOfFile =>
    rw [hend rfl]
    exact List.length_pos_of_ne_nil hne

theorem Stop.finish_fst (stop : Stop) (n : Nat) (line : Bytes) :
    (stop.finish true n line).1 = n := by
  cases stop <;> rfl

theorem Stop.finish_snd (h : stop ≠ .endOfFile) (line : Bytes) (s : Text) :
    (stop.finish true s.length (putText line 0 s)).2 = strcpy line s := by
  rw [← put8_putText]
  cases stop with
  | newline => rfl
  | full => rfl
  | endOfFile => exact absurd rfl h

theorem scriptLoop_nil (k : Nat) (sh : State) : scriptLoop k [] sh = [] := by
  cases k <;> rfl

/-- An empty line is not passed on. -/
theorem scriptLoop_empty (h : Reads (maxLine - 1) file [] stop rest) (hne : file ≠ []) (k : Nat)
    (sh : State) :
    scriptLoop (k + 1) file sh =
      scriptLoop k rest { sh with line := (stop.finish true 0 sh.line).2 } := by
  have hseen : (!file.isEmpty) = true := by simpa using hne
  have hread := readFdLine_eq h sh.line
  rw [hseen, List.length_nil, putText_nil, Stop.finish_fst] at hread
  rw [scriptLoop, hread]
  rfl

/-- Any other line is. -/
theorem scriptLoop_line (h : Reads (maxLine - 1) file s stop rest) (hs : s ≠ []) (k : Nat)
    {sh sh' : State}
    (hsh' : sh' = { sh with line := (stop.finish true s.length (putText sh.line 0 s)).2 }) :
    scriptLoop (k + 1) file sh = (strIn sh'.line maxLine, (executeLine sh').2.isExit) ::
      if (executeLine sh').2.isExit then [] else scriptLoop k rest (executeLine sh').1 := by
  have hne : file ≠ [] := by
    rintro rfl
    cases h
    exact hs rfl
  have hseen : (!file.isEmpty) = true := by simpa using hne
  have hread := readFdLine_eq h sh.line
  rw [hseen, Stop.finish_fst] at hread
  have hpos : (0 : Int) < s.length := Int.natCast_pos.mpr (List.length_pos_of_ne_nil hs)
  rw [scriptLoop, hread]
  dsimp only
  rw [if_neg (by omega), if_pos hpos, hsh']

/-- The run: from any state of the buffer, the rest of a script. -/
theorem scriptLoop_asWritten {k : Nat} (hk : file.length < k) (sh : State) :
    AsWritten (scriptLoop k file sh) (scriptLines file) ↔
      Terminated (openEnded file) (scriptLines file) sh := by
  induction k generalizing file sh with
  | zero => exact absurd hk (Nat.not_lt_zero _)
  | succ k ih =>
    obtain ⟨s, stop, rest, hreads⟩ := exists_reads (maxLine - 1) file
    have hlines := hreads.scriptLines_eq
    have hopen := hreads.openEnded_eq
    have hlt : s.length < maxLine := Nat.lt_of_le_of_lt hreads.length.1 (by decide)
    by_cases hfile : file = []
    · subst hfile
      rw [scriptLoop_nil, scriptLines_nil, asWritten_nil]
      exact ⟨fun _ ↦ trivial, fun _ ↦ rfl⟩
    have hrest : rest.length < k :=
      Nat.lt_of_lt_of_le (hreads.rest_length hfile) (Nat.le_of_lt_succ hk)
    by_cases hs : s = []
    · subst hs
      rw [List.filter_cons_of_neg (by simp), List.filter_nil, List.nil_append] at hlines
      rw [scriptLoop_empty hreads hfile, hlines, ih hrest]
      cases stop with
      | newline =>
        rw [hopen, if_neg (by decide)]
        exact terminated_put8 (fun l hl ↦ ne_nil_of_mem_scriptLines hl) sh
      | full => cases hreads.length.2.1.mp rfl
      | endOfFile =>
        rw [hreads.length.2.2 rfl, scriptLines_nil]
        exact Iff.rfl
    · rw [List.filter_cons_of_pos (by simpa using hs), List.filter_nil, List.singleton_append]
        at hlines
      rw [scriptLoop_line hreads hs k rfl, hlines, asWritten_cons, Terminated]
      by_cases hstop : stop = .endOfFile
      · subst hstop
        have hopen' : openEnded file = true := by simpa [hopen] using hs
        rw [hreads.length.2.2 rfl, scriptLines_nil, scriptLoop_nil, hopen', asWritten_nil]
        change strIn (putText sh.line 0 s) maxLine = s ∧ _ ↔ _
        rw [strIn_putText sh.line hlt]
        exact ⟨fun h ↦ ⟨h.1.1, fun _ _ ↦ h.1.2, fun _ ↦ trivial⟩,
          fun h ↦ ⟨⟨h.1, h.2.1 rfl rfl⟩, fun _ ↦ rfl⟩⟩
      · rw [if_neg hstop] at hopen
        rw [Stop.finish_snd hstop, strIn_strcpy sh.line hlt, ih hrest, hopen]
        refine and_congr_right fun _ ↦ ?_
        exact ⟨fun h ↦ ⟨fun hopen hnil ↦ absurd hnil (scriptLines_ne_nil hopen), h⟩, fun h ↦ h.2⟩

/-! ## The result -/

/-- **Scripts run line by line as written**, exactly if no line contains a zero byte and a last line
without a newline meets one in the buffer. -/
theorem script_as_written_iff (file : List UInt8) (sh : State) :
    AsWritten (scriptCalls file sh) (scriptLines file) ↔
      Terminated (openEnded file) (scriptLines file) sh :=
  scriptLoop_asWritten (Nat.lt_succ_self _) sh

/-- The file `echo ab`, a newline and `ls`, without another one. -/
def unfinishedScript : List UInt8 :=
  ['e', 'c', 'h', 'o', ' ', 'a', 'b', '\n', 'l', 's'].map Char.toUInt8

/-- From a buffer of zeros, the second string is `lsho`, with the end of the first word of the first
line. -/
theorem last_line_runs_on :
    scriptCalls unfinishedScript ⟨Bytes.zero, Bytes.zero, 0⟩ =
      [(['e', 'c', 'h', 'o', ' ', 'a', 'b'].map Char.toUInt8, false),
        (['l', 's', 'h', 'o'].map Char.toUInt8, false)] ∧
    scriptLines unfinishedScript =
      [['e', 'c', 'h', 'o', ' ', 'a', 'b'].map Char.toUInt8, ['l', 's'].map Char.toUInt8] ∧
    ¬AsWritten (scriptCalls unfinishedScript ⟨Bytes.zero, Bytes.zero, 0⟩)
      (scriptLines unfinishedScript) := by
  have hcalls : scriptCalls unfinishedScript ⟨Bytes.zero, Bytes.zero, 0⟩ =
      [(['e', 'c', 'h', 'o', ' ', 'a', 'b'].map Char.toUInt8, false),
        (['l', 's', 'h', 'o'].map Char.toUInt8, false)] := by
    decide
  have hfile : fileLines unfinishedScript =
      [['e', 'c', 'h', 'o', ' ', 'a', 'b'].map Char.toUInt8, ['l', 's'].map Char.toUInt8] := by
    decide
  have hlines : scriptLines unfinishedScript =
      [['e', 'c', 'h', 'o', ' ', 'a', 'b'].map Char.toUInt8, ['l', 's'].map Char.toUInt8] := by
    rw [scriptLines_cons hfile, cut_of_le (by decide), List.flatMap_singleton,
      cut_of_le (by decide)]
    rfl
  refine ⟨hcalls, hlines, fun h ↦ ?_⟩
  have horder := h.inOrder
  rw [hcalls, hlines] at horder
  exact absurd horder (by decide)

end FentoOS.Shell
