import FentoOS.Lib.CString
import FentoOS.Mm.Isolation
import FentoOS.Mm.MapRange

/-!
# Arguments on the stack of a program

`copy_strings` and `setup_user_stack` of `kernel/proc/proc.c`.  The strings of `argv`
and `envp` that fit are collected in two buffers of the kernel, and copied from there
to the top of the stack of the new address space, with the arrays that point to them
and the words that `crt0` looks for below.

The stack is mapped before anything is copied to it, so that it is a buffer like any
other, and everything is copied to a place of its own.
-/

namespace FentoOS.Kernel

open Lib Mm

/-- `USER_STACK_TOP`. -/
def userStackTop : Nat := 0xC0000000

/-- `USER_STACK_SIZE`. -/
def userStackSize : Nat := 0x40000

/-- `MAX_ARGS`. -/
def maxArgs : Nat := 32

/-- `ARG_MAX`. -/
def argMax : Nat := 2048

/-- What `copy_strings` has collected: the buffer, pointers into it, and how much of it is
used. -/
structure Copied where
  buf : Bytes
  dst : List Nat
  used : Nat

/-- The loop of `copy_strings`. -/
def copyStringsLoop : List (List UInt8) → Copied → Copied
  | [], c => c
  | s :: src, c =>
    if c.dst.length < maxArgs - 1 then
      let len := s.length + 1
      if argMax < c.used + len then c
      else
        copyStringsLoop src
          { buf := c.buf.memcpy c.used (cstr s) 0 len
            dst := c.dst ++ [c.used]
            used := c.used + len }
    else c

/-- `copy_strings`; `src` is `none` for a null pointer. -/
def copyStrings (src : Option (List (List UInt8))) (buf : Bytes) : Copied :=
  copyStringsLoop (src.getD []) { buf := buf, dst := [], used := 0 }

/-- `strlen` of a string in a buffer of `ARG_MAX` bytes. -/
def strlenAt (buf : Bytes) (p : Nat) : Nat := strlen (buf.shift p) (argMax - p)

/-- The loops of `setup_user_stack` that add up the lengths of the strings. -/
def totalStr (buf : Bytes) (ptrs : List Nat) : Nat :=
  (ptrs.map fun p ↦ strlenAt buf p + 1).sum

/-- The loops of `setup_user_stack` that copy the strings, and the addresses at which they put
them. -/
def pushStrings (dir strBase : Nat) (buf : Bytes) :
    List Nat → (soff : Nat) → Memory → List Nat × Nat × Memory
  | [], soff, m => ([], soff, m)
  | p :: ptrs, soff, m =>
    let len := strlenAt buf p + 1
    let m := halAddrspaceCopyTo m dir (strBase + soff) (buf.shift p) len
    let r := pushStrings dir strBase buf ptrs (soff + len) m
    ((strBase + soff) :: r.1, r.2)

/-- `hal_addrspace_copy_to(dir, va, &w, 4)`. -/
def copyWord (m : Memory) (dir va w : Nat) : Memory :=
  halAddrspaceCopyTo m dir va (Bytes.zero.put32 0 w) 4

/-- The loops of `setup_user_stack` that copy an array of pointers. -/
def copyWords (dir : Nat) : (va : Nat) → List Nat → Memory → Memory
  | _, [], m => m
  | va, w :: ws, m => copyWords dir (va + 4) ws (copyWord m dir va w)

/-- `setup_user_stack`, with the buffers that `argv` and `envp` point into: the stack pointer. -/
def setupUserStack (m : Memory) (dir : Nat) (argbuf : Bytes) (argv : List Nat) (envbuf : Bytes)
    (envp : List Nat) : Nat × Memory :=
  let m := mapPages dir (userStackTop - userStackSize) (userStackSize / 4096) m
  let strBase := (userStackTop - (totalStr argbuf argv + totalStr envbuf envp)) / 4 * 4
  let uargv := pushStrings dir strBase argbuf argv 0 m
  let uenvp := pushStrings dir strBase envbuf envp uargv.2.1 uargv.2.2
  let envpBase := strBase - (envp.length + 1) * 4
  let m := copyWords dir envpBase (uenvp.1 ++ [0]) uenvp.2.2
  let argvBase := envpBase - (argv.length + 1) * 4
  let m := copyWords dir argvBase (uargv.1 ++ [0]) m
  let m := copyWord m dir (argvBase - 4) envpBase
  let m := copyWord m dir (argvBase - 8) argvBase
  let m := copyWord m dir (argvBase - 12) argv.length
  let m := copyWord m dir (argvBase - 16) 0
  (argvBase - 16, m)

/-! ## The strings that are accepted -/

/-- What fits in the buffer and the arrays of the kernel. -/
def Accepts (A : List (List UInt8)) : Prop := A.length < maxArgs ∧ strBytes A ≤ argMax

variable {A : List (List UInt8)}

theorem Accepts.of_append {A' : List (List UInt8)} (h : Accepts (A ++ A')) : Accepts A := by
  obtain ⟨hlen, hbytes⟩ := h
  rw [List.length_append] at hlen
  rw [strBytes_append] at hbytes
  exact ⟨by omega, by omega⟩

/-- The longest prefix with a property. -/
structure LongestPrefix {α : Type} (P : List α → Prop) (A L : List α) : Prop where
  isPrefix : A <+: L
  holds : P A
  longest : ∀ {A'}, A' <+: L → P A' → A' <+: A

theorem LongestPrefix.unique {α : Type} {P : List α → Prop} {A A' L : List α}
    (h : LongestPrefix P A L) (h' : LongestPrefix P A' L) : A = A' :=
  (h'.longest h.isPrefix h.holds).eq_of_length_le (h.longest h'.isPrefix h'.holds).length_le

/-- The pointers point to the strings, in a buffer of which `n` bytes are used. -/
def Points (buf : Bytes) (n : Nat) : List Nat → List (List UInt8) → Prop :=
  List.Forall₂ fun p s ↦ p + s.length < n ∧ HoldsStr (buf.shift p) s

variable {buf : Bytes} {n : Nat} {ptrs : List Nat}

theorem Points.mono {n' : Nat} (h : Points buf n ptrs A) (hn : n ≤ n') : Points buf n' ptrs A :=
  h.imp fun _ _ hp ↦ ⟨hp.1.trans_le hn, hp.2⟩

/-- Another string is put into the buffer. -/
theorem Points.push (h : Points buf n ptrs A) (s : List UInt8) :
    Points (buf.memcpy n (cstr s) 0 (s.length + 1)) (n + (s.length + 1)) (ptrs ++ [n])
      (A ++ [s]) := by
  refine List.rel_append ?_ (.cons ⟨by omega, fun j hj ↦ ?_⟩ .nil)
  · refine h.imp fun p t hp ↦ ⟨by omega, fun j hj ↦ ?_⟩
    exact (Bytes.memcpy_of_notMem _ _ (by omega)).trans (hp.2 j hj)
  · change buf.memcpy n (cstr s) 0 (s.length + 1) (n + j) = cstr s j
    rw [Bytes.memcpy_of_mem _ _ (by omega) (by omega), Nat.zero_add, Nat.add_sub_cancel_left]

/-- The loop of `copy_strings` takes strings as long as the result is accepted. -/
theorem copyStringsLoop_spec {src : List (List UInt8)} {c : Copied}
    (h : Points c.buf c.used c.dst A) (hused : c.used = strBytes A) (hA : Accepts A) :
    ∃ A', A' <+: src ∧ Accepts (A ++ A') ∧
      Points (copyStringsLoop src c).buf argMax (copyStringsLoop src c).dst (A ++ A') ∧
      ∀ {A''}, A'' <+: src → Accepts (A ++ A'') → A'' <+: A' := by
  induction src generalizing A c with
  | nil =>
    refine ⟨[], List.prefix_rfl, by simpa using hA, ?_, fun hp _ ↦ hp⟩
    rw [List.append_nil]
    exact h.mono (hused ▸ hA.2)
  | cons s src ih =>
    have hlen : c.dst.length = A.length := h.length_eq
    have hbytes : strBytes (A ++ [s]) = c.used + (s.length + 1) := by
      rw [strBytes_append, hused]
      rfl
    have hiff : Accepts (A ++ [s]) ↔
        c.dst.length < maxArgs - 1 ∧ ¬argMax < c.used + (s.length + 1) := by
      rw [Accepts, hbytes, List.length_append, List.length_singleton, hlen, maxArgs]
      omega
    by_cases hfits : Accepts (A ++ [s])
    · obtain ⟨hcount, hroom⟩ := hiff.mp hfits
      obtain ⟨A', hpre, hacc, hpoints, hlongest⟩ := ih
        (c := ⟨_, c.dst ++ [c.used], c.used + (s.length + 1)⟩) (h.push s) hbytes.symm hfits
      rw [copyStringsLoop, if_pos hcount]
      simp only [if_neg hroom]
      rw [List.append_assoc] at hacc hpoints
      refine ⟨s :: A', ?_, hacc, hpoints, fun {A''} hp hac ↦ ?_⟩
      · exact List.cons_prefix_cons.mpr ⟨rfl, hpre⟩
      · cases A'' with
        | nil => exact List.nil_prefix
        | cons s' A'' =>
          obtain ⟨rfl, hp'⟩ := List.cons_prefix_cons.mp hp
          refine List.cons_prefix_cons.mpr ⟨rfl, hlongest hp' ?_⟩
          rwa [List.append_assoc]
    · have hstop : copyStringsLoop (s :: src) c = c := by
        rw [copyStringsLoop]
        split
        case isTrue hcount => exact if_pos (by_contra fun hroom ↦ hfits (hiff.mpr ⟨hcount, hroom⟩))
        case isFalse => rfl
      rw [hstop]
      refine ⟨[], List.nil_prefix, by simpa using hA, ?_, fun {A''} hp hac ↦ ?_⟩
      · rw [List.append_nil]
        exact h.mono (hused ▸ hA.2)
      · cases A'' with
        | nil => exact List.nil_prefix
        | cons s' A'' =>
          obtain ⟨rfl, -⟩ := List.cons_prefix_cons.mp hp
          rw [List.append_cons] at hac
          exact absurd hac.of_append hfits

/-- `copy_strings` collects the longest prefix that is accepted. -/
theorem copyStrings_spec {src : List (List UInt8)} (hA : LongestPrefix Accepts A src) (buf : Bytes)
    : Points (copyStrings (some src) buf).buf argMax (copyStrings (some src) buf).dst A := by
  have hnil : Accepts [] := ⟨by decide, Nat.zero_le _⟩
  obtain ⟨A', hpre, hacc, hpoints, hlongest⟩ :=
    copyStringsLoop_spec (A := []) (c := ⟨buf, [], 0⟩) .nil rfl hnil
  have heq : A = A' := hA.unique ⟨hpre, hacc, hlongest⟩
  rw [heq]
  exact hpoints

variable {p : Nat}

/-! ## Copying to the stack -/

section

variable {S : Setup} {B : Nat → Prop} {live : List Nat} {D lo hi : Nat} {m : Memory} {v : Bytes}

theorem strlenAt_eq {s : List UInt8} (hs : IsCString s) (hp : p + s.length < argMax)
    (h : HoldsStr (buf.shift p) s) : strlenAt buf p = s.length :=
  congrArg List.length (h.strIn_eq hs (by omega))

theorem totalStr_eq (h : Points buf argMax ptrs A) (hA : ∀ s ∈ A, IsCString s) :
    totalStr buf ptrs = strBytes A := by
  induction h with
  | nil => rfl
  | @cons p s ptrs A hp _ ih =>
    have hlen := strlenAt_eq (hA s List.mem_cons_self) hp.1 hp.2
    have hrest := ih fun t ht ↦ hA t (List.mem_cons_of_mem _ ht)
    rw [totalStr] at hrest ⊢
    rw [List.map_cons, List.sum_cons, hrest, hlen, strBytes]

section Flat

variable (h : Flat S B live D lo hi m v) (hD : D ∈ live) (huser : userBase ≤ lo)
  (hhi : hi ≤ 2 ^ 32)

include h hD huser hhi

theorem flat_copyWord (va w : Nat) (hlo : lo ≤ va) (hle : va + 4 ≤ hi) :
    Flat S B live D lo hi (copyWord m D va w) (v.put32 va w) := by
  rw [← Bytes.memcpy_word]
  exact h.copyTo hD huser hhi hlo hle

theorem flat_copyWords (va : Nat) (ws : List Nat) (hlo : lo ≤ va)
    (hle : va + 4 * ws.length ≤ hi) :
    Flat S B live D lo hi (copyWords D va ws m) (v.putWords va ws) := by
  induction ws generalizing va m v with
  | nil => exact h
  | cons w ws ih =>
    rw [List.length_cons] at hle
    exact ih (flat_copyWord h hD huser hhi va w hlo (by omega)) (va + 4) (by omega) (by omega)

/-- The strings stand on the stack one behind the other. -/
theorem flat_pushStrings {strBase soff : Nat} (hp : Points buf argMax ptrs A)
    (hA : ∀ s ∈ A, IsCString s) (hlo : lo ≤ strBase + soff)
    (hle : strBase + soff + strBytes A ≤ hi) :
    (pushStrings D strBase buf ptrs soff m).1 = strPositions (strBase + soff) A ∧
      (pushStrings D strBase buf ptrs soff m).2.1 = soff + strBytes A ∧
      ∃ v', Flat S B live D lo hi (pushStrings D strBase buf ptrs soff m).2.2 v' ∧
        HoldsStrs v' (strBase + soff) A ∧
        ∀ {a}, a < strBase + soff ∨ strBase + soff + strBytes A ≤ a → v' a = v a := by
  induction hp generalizing soff m v with
  | nil => exact ⟨rfl, rfl, v, h, .nil, fun _ ↦ rfl⟩
  | @cons p s ptrs A hps _ ih =>
    have hlen := strlenAt_eq (hA s List.mem_cons_self) hps.1 hps.2
    rw [strBytes] at hle ⊢
    have h₁ : Flat S B live D lo hi (halAddrspaceCopyTo m D (strBase + soff) (buf.shift p)
        (s.length + 1)) _ := h.copyTo hD huser hhi hlo (by omega)
    have hlo' : lo ≤ strBase + (soff + (s.length + 1)) := by omega
    obtain ⟨hptrs, hsoff, v', h', hstrs, hkeep⟩ := ih h₁
      (fun t ht ↦ hA t (List.mem_cons_of_mem _ ht)) hlo' (by omega)
    rw [← Nat.add_assoc strBase] at hptrs hstrs hkeep
    simp only [pushStrings, hlen]
    refine ⟨by rw [hptrs]; rfl, by omega, v', h', .cons (fun j hj ↦ ?_) hstrs, fun {a} ha ↦ ?_⟩
    · change v' (strBase + soff + j) = cstr s j
      rw [hkeep (by omega), Bytes.memcpy_of_mem _ _ (by omega) (by omega), Nat.zero_add,
        Nat.add_sub_cancel_left]
      exact hps.2 j hj
    · rw [hkeep (by omega), Bytes.memcpy_of_notMem _ _ (by omega)]

end Flat

end

/-! ## What a program finds -/

/-- The string stands at `p`, with its terminator. -/
def StringAt (m : Memory) (D p : Nat) (s : List UInt8) : Prop :=
  ∀ j ≤ s.length, byteAt m D (p + j) = some (cstr s j)

/-- The words stand at `p`. -/
def WordsAt (m : Memory) (D p : Nat) (ws : List Nat) : Prop :=
  ∀ i (hi : i < ws.length), wordAt m D (p + 4 * i) = some ws[i]

/-- The places of strings: where each begins, and how long it is with its terminator. -/
def strPlaces (ptrs : List Nat) (A : List (List UInt8)) : List (Nat × Nat) :=
  List.zipWith (fun p s ↦ (p, s.length + 1)) ptrs A

/-- What `crt0` finds at `sp`, the arrays and the strings. -/
structure ArgsAt (m : Memory) (D sp : Nat) (A E : List (List UInt8)) (argv envp : Nat)
    (uargv uenvp : List Nat) : Prop where
  aligned : sp % 4 = 0
  argc : wordAt m D (sp + 4) = some A.length
  argvWord : wordAt m D (sp + 8) = some argv
  envpWord : wordAt m D (sp + 12) = some envp
  argvArray : WordsAt m D argv (uargv ++ [0])
  envpArray : WordsAt m D envp (uenvp ++ [0])
  argvStrings : List.Forall₂ (StringAt m D) uargv A
  envpStrings : List.Forall₂ (StringAt m D) uenvp E
  disjoint : ((sp, 16) :: (argv, 4 * (A.length + 1)) :: (envp, 4 * (E.length + 1)) ::
    (strPlaces uargv A ++ strPlaces uenvp E)).Pairwise
      fun r r' ↦ r.1 + r.2 ≤ r'.1 ∨ r'.1 + r'.2 ≤ r.1
  inside : ∀ r ∈ (sp, 16) :: (argv, 4 * (A.length + 1)) :: (envp, 4 * (E.length + 1)) ::
    (strPlaces uargv A ++ strPlaces uenvp E),
      userStackTop - userStackSize ≤ r.1 ∧ r.1 + r.2 ≤ userStackTop

theorem strPlaces_within {r : Nat × Nat} (hr : r ∈ strPlaces (strPositions p A) A) :
    p ≤ r.1 ∧ r.1 + r.2 ≤ p + strBytes A := by
  induction A generalizing p with
  | nil => cases hr
  | cons s A ih =>
    rw [strBytes]
    rcases List.mem_cons.mp hr with rfl | hr
    · exact ⟨le_rfl, by simp only; omega⟩
    · obtain ⟨h₁, h₂⟩ := ih hr
      exact ⟨by omega, by omega⟩

theorem strPlaces_ascending (p : Nat) (A : List (List UInt8)) :
    (strPlaces (strPositions p A) A).Pairwise fun r r' ↦ r.1 + r.2 ≤ r'.1 := by
  induction A generalizing p with
  | nil => exact .nil
  | cons s A ih => exact .cons (fun r hr ↦ (strPlaces_within hr).1) (ih _)

section

variable {S : Setup} {B : Nat → Prop} {live : List Nat} {D lo hi p : Nat} {m : Memory} {v : Bytes}

theorem flat_strings (h : Flat S B live D lo hi m v) (hA : HoldsStrs v p A) (hlo : lo ≤ p)
    (hhi : p + strBytes A ≤ hi) : List.Forall₂ (StringAt m D) (strPositions p A) A := by
  induction A generalizing p with
  | nil => exact .nil
  | cons s A ih =>
    obtain ⟨hs, hrest⟩ := List.forall₂_cons.mp hA
    rw [strBytes] at hhi
    refine .cons (fun j hj ↦ ?_) (ih hrest (by omega) (by omega))
    rw [h.sees (by omega) (by omega), ← hs j hj]
    rfl

theorem strPositions_lt (h : p + strBytes A ≤ n) : ∀ w ∈ strPositions p A, w < n := by
  induction A generalizing p with
  | nil => exact fun w hw ↦ absurd hw List.not_mem_nil
  | cons s A ih =>
    rw [strBytes] at h
    intro w hw
    rcases List.mem_cons.mp hw with rfl | hw
    · omega
    · exact ih (by omega) w hw

end

/-- Where the strings, the arrays and the stack pointer are. -/
structure StackPlan (A E : List (List UInt8)) (strBase envp argv sp : Nat) : Prop where
  strBase_eq : strBase = (userStackTop - (strBytes A + strBytes E)) / 4 * 4
  envp_eq : envp = strBase - (E.length + 1) * 4
  argv_eq : argv = envp - (A.length + 1) * 4
  sp_eq : sp = argv - 16

section

variable {A E : List (List UInt8)} {strBase envp argv sp : Nat}

/-- Everything has a place of its own on the stack. -/
theorem StackPlan.bounds (h : StackPlan A E strBase envp argv sp) (hA : Accepts A)
    (hE : Accepts E) : sp % 4 = 0 ∧ userStackTop - userStackSize ≤ sp ∧ sp + 16 = argv ∧
      argv + 4 * (A.length + 1) = envp ∧ envp + 4 * (E.length + 1) = strBase ∧
      strBase + strBytes A + strBytes E ≤ userStackTop := by
  obtain ⟨rfl, rfl, rfl, rfl⟩ := h
  obtain ⟨hA₁, hA₂⟩ := hA
  obtain ⟨hE₁, hE₂⟩ := hE
  unfold maxArgs at hA₁ hE₁
  unfold argMax at hA₂ hE₂
  unfold userStackTop userStackSize
  omega

theorem StackPlan.disjoint (h : StackPlan A E strBase envp argv sp) (hA : Accepts A)
    (hE : Accepts E) :
    ((sp, 16) :: (argv, 4 * (A.length + 1)) :: (envp, 4 * (E.length + 1)) ::
      (strPlaces (strPositions strBase A) A ++
        strPlaces (strPositions (strBase + strBytes A) E) E)).Pairwise
      fun r r' ↦ r.1 + r.2 ≤ r'.1 := by
  obtain ⟨-, -, hsp, hargv, henvp, -⟩ := h.bounds hA hE
  have habove : ∀ r ∈ strPlaces (strPositions strBase A) A ++
      strPlaces (strPositions (strBase + strBytes A) E) E, strBase ≤ r.1 := by
    intro r hr
    rcases List.mem_append.mp hr with hr | hr
    · exact (strPlaces_within hr).1
    · have := (strPlaces_within hr).1
      omega
  have hstrs := List.pairwise_append.mpr ⟨strPlaces_ascending strBase A,
    strPlaces_ascending (strBase + strBytes A) E, fun r hr r' hr' ↦
      (strPlaces_within hr).2.trans (strPlaces_within hr').1⟩
  refine .cons (fun r hr ↦ ?_) (.cons (fun r hr ↦ ?_) (.cons (fun r hr ↦ ?_) hstrs))
  · rcases List.mem_cons.mp hr with rfl | hr
    · exact hsp.le
    · rcases List.mem_cons.mp hr with rfl | hr
      · simp only
        omega
      · have := habove r hr
        simp only
        omega
  · rcases List.mem_cons.mp hr with rfl | hr
    · exact hargv.le
    · have := habove r hr
      simp only
      omega
  · have := habove r hr
    simp only
    omega

theorem StackPlan.inside (h : StackPlan A E strBase envp argv sp) (hA : Accepts A)
    (hE : Accepts E) : ∀ r ∈ (sp, 16) :: (argv, 4 * (A.length + 1)) ::
      (envp, 4 * (E.length + 1)) :: (strPlaces (strPositions strBase A) A ++
        strPlaces (strPositions (strBase + strBytes A) E) E),
      userStackTop - userStackSize ≤ r.1 ∧ r.1 + r.2 ≤ userStackTop := by
  obtain ⟨-, hlo, hsp, hargv, henvp, hhi⟩ := h.bounds hA hE
  intro r hr
  rcases List.mem_cons.mp hr with rfl | hr
  · exact ⟨hlo, by simp only; omega⟩
  rcases List.mem_cons.mp hr with rfl | hr
  · exact ⟨by simp only; omega, by simp only; omega⟩
  rcases List.mem_cons.mp hr with rfl | hr
  · exact ⟨by simp only; omega, by simp only; omega⟩
  rcases List.mem_append.mp hr with hr | hr
  · obtain ⟨h₁, h₂⟩ := strPlaces_within hr
    exact ⟨by omega, by omega⟩
  · obtain ⟨h₁, h₂⟩ := strPlaces_within hr
    exact ⟨by omega, by omega⟩

end

/-- The stack as a buffer: the strings, the arrays of their addresses, and three words above the
stack pointer. -/
structure StackImage (v : Bytes) (A E : List (List UInt8)) (strBase envp argv sp : Nat) :
    Prop where
  argc : v.get32 (sp + 4) = A.length
  argvWord : v.get32 (sp + 8) = argv
  envpWord : v.get32 (sp + 12) = envp
  argvArray : ∀ i (hi : i < (strPositions strBase A ++ [0]).length),
    v.get32 (argv + 4 * i) = (strPositions strBase A ++ [0])[i]
  envpArray : ∀ i (hi : i < (strPositions (strBase + strBytes A) E ++ [0]).length),
    v.get32 (envp + 4 * i) = (strPositions (strBase + strBytes A) E ++ [0])[i]
  argvStrings : HoldsStrs v strBase A
  envpStrings : HoldsStrs v (strBase + strBytes A) E

section

variable {A E : List (List UInt8)} {strBase envp argv sp : Nat}

theorem array_length (p : Nat) (A : List (List UInt8)) :
    (strPositions p A ++ [0]).length = A.length + 1 := by
  rw [List.length_append, strPositions_length, List.length_singleton]

theorem array_lt (h : p + strBytes A ≤ n) (hn : 0 < n) : ∀ w ∈ strPositions p A ++ [0], w < n := by
  intro w hw
  rcases List.mem_append.mp hw with hw | hw
  · exact strPositions_lt h w hw
  · rwa [List.mem_singleton.mp hw]

/-- What is stored below the strings, and below the arrays, leaves them alone. -/
theorem StackPlan.image (h : StackPlan A E strBase envp argv sp) (hA : Accepts A)
    (hE : Accepts E) {v : Bytes} (hstrA : HoldsStrs v strBase A)
    (hstrE : HoldsStrs v (strBase + strBytes A) E) :
    StackImage ((((((v.putWords envp (strPositions (strBase + strBytes A) E ++ [0])).putWords
      argv (strPositions strBase A ++ [0])).put32 (argv - 4) envp).put32 (argv - 8) argv).put32
        (argv - 12) A.length).put32 (argv - 16) 0) A E strBase envp argv sp := by
  obtain ⟨-, hlo, hsp, hargv, henvp, hhi⟩ := h.bounds hA hE
  have htop : userStackTop < 2 ^ 32 := by decide
  have hlenA := array_length strBase A
  have hlenE := array_length (strBase + strBytes A) E
  generalize hv₁ : v.putWords envp (strPositions (strBase + strBytes A) E ++ [0]) = v₁
  generalize hv₂ : v₁.putWords argv (strPositions strBase A ++ [0]) = v₂
  -- The words of the header are below the arrays.
  have hhead : ∀ {a}, argv ≤ a → ((((v₂.put32 (argv - 4) envp).put32 (argv - 8) argv).put32
      (argv - 12) A.length).put32 (argv - 16) 0) a = v₂ a := by
    intro a ha
    rw [Bytes.put32_of_notMem _ (by omega), Bytes.put32_of_notMem _ (by omega),
      Bytes.put32_of_notMem _ (by omega), Bytes.put32_of_notMem _ (by omega)]
  have habove : ∀ {a}, envp ≤ a → v₂ a = v₁ a := by
    intro a ha
    rw [← hv₂, Bytes.putWords_of_notMem (by omega)]
  have hstrs : ∀ {a}, strBase ≤ a → v₁ a = v a := by
    intro a ha
    rw [← hv₁, Bytes.putWords_of_notMem (by omega)]
  refine ⟨?_, ?_, ?_, fun i hi ↦ ?_, fun i hi ↦ ?_, hstrA.congr fun a ha _ ↦ ?_,
    hstrE.congr fun a ha _ ↦ ?_⟩
  · rw [(by omega : sp + 4 = argv - 12), Bytes.get32_put32_of_disjoint _ (by omega),
      Bytes.get32_put32_same, Nat.mod_eq_of_lt (by omega)]
  · rw [(by omega : sp + 8 = argv - 8), Bytes.get32_put32_of_disjoint _ (by omega),
      Bytes.get32_put32_of_disjoint _ (by omega), Bytes.get32_put32_same,
      Nat.mod_eq_of_lt (by omega)]
  · rw [(by omega : sp + 12 = argv - 4), Bytes.get32_put32_of_disjoint _ (by omega),
      Bytes.get32_put32_of_disjoint _ (by omega), Bytes.get32_put32_of_disjoint _ (by omega),
      Bytes.get32_put32_same, Nat.mod_eq_of_lt (by omega)]
  · rw [Bytes.get32_congr fun j hj _ ↦ hhead (by omega), ← hv₂]
    exact Bytes.get32_putWords hi (array_lt (by omega) (by decide))
  · rw [Bytes.get32_congr fun j hj _ ↦ (hhead (by omega)).trans (habove (by omega)), ← hv₁]
    exact Bytes.get32_putWords hi (array_lt (by omega) (by decide))
  · rw [hhead (by omega), habove (by omega), hstrs ha]
  · rw [hhead (by omega), habove (by omega), hstrs (by omega)]

/-- What a program reads from a stack that looks like the buffer. -/
theorem StackPlan.argsAt (h : StackPlan A E strBase envp argv sp) (hA : Accepts A)
    (hE : Accepts E) {S : Setup} {B : Nat → Prop} {live : List Nat} {D : Nat} {m : Memory}
    {v : Bytes} (hv : StackImage v A E strBase envp argv sp)
    (hf : Flat S B live D (userStackTop - userStackSize) userStackTop m v) :
    ArgsAt m D sp A E argv envp (strPositions strBase A)
      (strPositions (strBase + strBytes A) E) := by
  obtain ⟨hmod, hlo, hsp, hargv, henvp, hhi⟩ := h.bounds hA hE
  have hlenA := array_length strBase A
  have hlenE := array_length (strBase + strBytes A) E
  have hword : ∀ {p w}, userStackTop - userStackSize ≤ p → p + 4 ≤ userStackTop →
      v.get32 p = w → wordAt m D p = some w := by
    intro p w hp hp' hw
    rw [hf.word hp hp', hw]
  exact {
    aligned := hmod
    argc := hword (by omega) (by omega) hv.argc
    argvWord := hword (by omega) (by omega) hv.argvWord
    envpWord := hword (by omega) (by omega) hv.envpWord
    argvArray := fun i hi ↦ hword (by omega) (by omega) (hv.argvArray i hi)
    envpArray := fun i hi ↦ hword (by omega) (by omega) (hv.envpArray i hi)
    argvStrings := flat_strings hf hv.argvStrings (by omega) (by omega)
    envpStrings := flat_strings hf hv.envpStrings (by omega) (by omega)
    disjoint := (h.disjoint hA hE).imp .inl
    inside := h.inside hA hE }

end

section

variable {S : Setup} {B : Nat → Prop} {live : List Nat} {D : Nat} {m : Memory}
  {argbuf envbuf : Bytes} {argv envp : List Nat} {A E : List (List UInt8)}

/-- `setup_user_stack` maps the stack, and puts what it is given where a program finds it. -/
theorem setupUserStack_spec (h : Held S B m live) (hD : D ∈ live) (hoom : m.pmm.oom = false)
    (hnone : ∀ {a}, userStackTop - userStackSize ≤ a → a < userStackTop →
      dirResolve m.mem D a = 0)
    (hroom : mapNeeds m.mem D (userStackTop - userStackSize) (userStackSize / 4096) ≤
      (freeSet m.pmm).card)
    (hargv : Points argbuf argMax argv A) (henvp : Points envbuf argMax envp E)
    (hA : ∀ s ∈ A, IsCString s) (hE : ∀ s ∈ E, IsCString s) (haccA : Accepts A)
    (haccE : Accepts E) :
    ∃ argvp envpp uargv uenvp,
      ArgsAt (setupUserStack m D argbuf argv envbuf envp).2 D
        (setupUserStack m D argbuf argv envbuf envp).1 A E argvp envpp uargv uenvp := by
  obtain ⟨v₀, f₀⟩ := (h.mapsRange hD (by decide) (by decide) (by decide) hoom hnone hroom).flat
  rw [(by decide : userStackTop - userStackSize + userStackSize / 4096 * 4096 = userStackTop)]
    at f₀
  generalize hm₀ : mapPages D (userStackTop - userStackSize) (userStackSize / 4096) m = m₀ at f₀
  obtain ⟨strBase, hbase⟩ : ∃ b, b = (userStackTop - (strBytes A + strBytes E)) / 4 * 4 :=
    ⟨_, rfl⟩
  obtain ⟨ep, hep⟩ : ∃ p, p = strBase - (E.length + 1) * 4 := ⟨_, rfl⟩
  obtain ⟨ap, hap⟩ : ∃ p, p = ep - (A.length + 1) * 4 := ⟨_, rfl⟩
  have hplan : StackPlan A E strBase ep ap (ap - 16) := ⟨hbase, hep, hap, rfl⟩
  obtain ⟨-, hlo, hsp, haend, heend, hhi⟩ := hplan.bounds haccA haccE
  have huser : userBase ≤ userStackTop - userStackSize := by decide
  have htop : userStackTop ≤ 2 ^ 32 := by decide
  -- The strings, the strings of the environment behind them.
  have hlo₁ : userStackTop - userStackSize ≤ strBase + 0 := by omega
  obtain ⟨hptrsA, hsoffA, v₁, f₁, hstrA, -⟩ :=
    flat_pushStrings f₀ hD huser htop hargv hA hlo₁ (by omega)
  have hlo₂ : userStackTop - userStackSize ≤ strBase + strBytes A := by omega
  obtain ⟨hptrsE, -, v₂, f₂, hstrE, hkeep⟩ :=
    flat_pushStrings f₁ hD huser htop henvp hE hlo₂ hhi
  rw [Nat.zero_add] at hsoffA
  rw [Nat.add_zero] at hptrsA hstrA
  -- The arrays, and the words of the header.
  have hlenA := array_length strBase A
  have hlenE := array_length (strBase + strBytes A) E
  have f₃ := flat_copyWords f₂ hD huser htop ep
    (strPositions (strBase + strBytes A) E ++ [0]) (by omega) (by omega)
  have f₄ := flat_copyWords f₃ hD huser htop ap (strPositions strBase A ++ [0]) (by omega)
    (by omega)
  have f₅ := flat_copyWord f₄ hD huser htop (ap - 4) ep (by omega) (by omega)
  have f₆ := flat_copyWord f₅ hD huser htop (ap - 8) ap (by omega) (by omega)
  have f₇ := flat_copyWord f₆ hD huser htop (ap - 12) A.length (by omega) (by omega)
  have f₈ := flat_copyWord f₇ hD huser htop (ap - 16) 0 (by omega) (by omega)
  have himage := hplan.image haccA haccE (hstrA.congr fun a _ ha ↦ hkeep (.inl ha)) hstrE
  refine ⟨ap, ep, strPositions strBase A, strPositions (strBase + strBytes A) E, ?_⟩
  simp only [setupUserStack, totalStr_eq hargv hA, totalStr_eq henvp hE, hm₀, ← hbase, hptrsA,
    hsoffA, hptrsE, hargv.length_eq, henvp.length_eq, ← hep, ← hap]
  exact hplan.argsAt haccA haccE himage f₈

end

/-! ## The stack of a fresh space -/

theorem LongestPrefix.mem {α : Type} {P : List α → Prop} {A L : List α}
    (h : LongestPrefix P A L) {a : α} (ha : a ∈ A) : a ∈ L :=
  h.isPrefix.subset ha

/-- The pages of the stack have one table. -/
theorem mapNeeds_stack_le (mem : Bytes) (D : Nat) :
    mapNeeds mem D (userStackTop - userStackSize) (userStackSize / 4096) ≤ 65 := by
  have hsub : missingTables mem D (userStackTop - userStackSize) (userStackSize / 4096) ⊆
      {767} := by
    intro di hdi
    obtain ⟨-, -, i, hi, rfl⟩ := Finset.mem_filter.mp hdi
    rw [Finset.mem_singleton]
    rw [(by decide : userStackSize / 4096 = 64)] at hi
    rw [(by decide : userStackTop - userStackSize = 0xBFFC0000), pdIndex]
    omega
  have hcard := Finset.card_le_card hsub
  rw [Finset.card_singleton] at hcard
  rw [mapNeeds, (by decide : userStackSize / 4096 = 64)] at *
  omega

/-- **The arguments arrive.**  A program in a fresh space finds, the way `crt0` reads them from
its stack, the longest prefixes of `argv` and `envp` that fit in the kernel's buffers. -/
theorem arguments_survive_exec {m : Memory} (h₀ : Start m) {s : Spaces}
    (h : Reach (· = ⟨m, []⟩) CallStep s) (hoom : s.m.pmm.oom = false)
    (hroom : 66 ≤ (freeSet s.m.pmm).card) {argv envp A E : List (List UInt8)}
    (hargv : ∀ t ∈ argv, IsCString t) (henvp : ∀ t ∈ envp, IsCString t)
    (hA : LongestPrefix Accepts A argv) (hE : LongestPrefix Accepts E envp)
    (argbuf envbuf : Bytes) :
    let r := halAddrspaceCreate s.m
    let kargv := copyStrings (some argv) argbuf
    let kenvp := copyStrings (some envp) envbuf
    let stack := setupUserStack r.2 r.1 kargv.buf kargv.dst kenvp.buf kenvp.dst
    ∃ argvp envpp uargv uenvp, ArgsAt stack.2 r.1 stack.1 A E argvp envpp uargv uenvp := by
  intro r kargv kenvp stack
  obtain ⟨B, hheld⟩ := held_calls h₀.held h hoom
  have hdraws := draws_halAddrspaceCreate s.m
  have hclear : r.2.pmm.oom = false := by
    exact hdraws.clear_of_le hoom (by omega)
  obtain ⟨-, hheld', hfresh⟩ := hheld.create hclear
  have hnone : ∀ {a}, userStackTop - userStackSize ≤ a → a < userStackTop →
      dirResolve r.2.mem r.1 a = 0 := by
    intro a hlo hhi
    unfold userStackTop at hlo hhi
    unfold userStackSize at hlo
    have hzero : entry r.2.mem r.1 (pdIndex a) = 0 := by
      unfold pdIndex
      exact hfresh (by omega) (by omega)
    rw [dirResolve, hzero]
    rfl
  have hcard : (freeSet r.2.pmm).card = (freeSet s.m.pmm).card - 1 := hdraws.card
  refine setupUserStack_spec hheld' List.mem_cons_self hclear hnone ?_ (copyStrings_spec hA argbuf)
    (copyStrings_spec hE envbuf) (fun t ht ↦ hargv t (hA.mem ht)) (fun t ht ↦ henvp t (hE.mem ht))
    hA.holds hE.holds
  have := mapNeeds_stack_le r.2.mem r.1
  omega

/-- A memory with room for a stack: 128 frames, four of which are taken. -/
def execMemory : Memory :=
  { sampleMemory with
    pmm := { used := fun f ↦ decide (f < 4), totalFrames := 128, freeFrames := 124, oom := false } }

/-- `argv` is `"sh"`, and `envp` is `"HOME=/"`. -/
theorem arguments_survive_exec_sh :
    let argv : List (List UInt8) := [[0x73, 0x68]]
    let envp : List (List UInt8) := [[0x48, 0x4F, 0x4D, 0x45, 0x3D, 0x2F]]
    let r := halAddrspaceCreate execMemory
    let kargv := copyStrings (some argv) Bytes.zero
    let kenvp := copyStrings (some envp) Bytes.zero
    let stack := setupUserStack r.2 r.1 kargv.buf kargv.dst kenvp.buf kenvp.dst
    ∃ argvp envpp uargv uenvp,
      ArgsAt stack.2 r.1 stack.1 argv envp argvp envpp uargv uenvp := by
  have hstart : Start execMemory :=
    { total := by decide
      count := by
        unfold Pmm.Exact
        decide +kernel
      zero := by
        unfold Memory.Used
        decide
      kernelFrame := by
        unfold Memory.Used
        decide
      aligned := by decide }
  exact arguments_survive_exec hstart (s := ⟨execMemory, []⟩) (.init rfl) rfl (by decide +kernel)
    (by unfold IsCString; decide) (by unfold IsCString; decide)
    ⟨List.prefix_rfl, ⟨by decide, by decide⟩, fun h _ ↦ h⟩
    ⟨List.prefix_rfl, ⟨by decide, by decide⟩, fun h _ ↦ h⟩ Bytes.zero Bytes.zero

end FentoOS.Kernel
