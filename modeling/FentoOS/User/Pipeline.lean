import FentoOS.User.Tokens

/-!
# The shell's pipelines

`parse_pipeline` cuts a list of tokens into commands at each `|` and takes the
token behind a redirection as its operand, whatever it is.  It returns -1 when
there is no token left for the operand, and when there are more commands than
`cmds` has room for.

What it does not look at is whether a command has a word, and whether an operand
is an operator.  `Stages` is the way in which every list of tokens falls into
commands and `Proper` is what the grammar asks of a command beyond that.
-/

namespace FentoOS.Shell

open FentoOS.Lib FentoOS.Libc

/-! ## The parser -/

def pipeText : Text := ['|'.toUInt8]

def inputText : Text := ['<'.toUInt8]

def outputText : Text := ['>'.toUInt8]

def appendText : Text := ['>'.toUInt8, '>'.toUInt8]

/-- `struct cmd`; `argc` is the length of `argv`. -/
structure Cmd where
  argv : List Text
  infile : Option Text
  outfile : Option Text
  append : Bool
  deriving DecidableEq, Repr

/-- A command behind `memset`. -/
def Cmd.zero : Cmd := ⟨[], none, none, false⟩

/-- A word is added to `argv`, if there is room for it in front of the last entry. -/
def Cmd.addArg (c : Cmd) (t : Text) : Cmd :=
  if c.argv.length < maxArgs - 1 then { c with argv := c.argv ++ [t] } else c

/-- The loop of `parse_pipeline`, with the commands in front of the current one. -/
def parseLoop (maxcmds : Nat) : List Text → List Cmd → Cmd → Option (List Cmd)
  | [], done, c => some (done ++ [c])
  | t :: ts, done, c =>
    if t = pipeText then
      if maxcmds ≤ done.length + 1 then none else parseLoop maxcmds ts (done ++ [c]) Cmd.zero
    else if t = inputText then
      match ts with
      | [] => none
      | f :: ts => parseLoop maxcmds ts done { c with infile := some f }
    else if t = outputText then
      match ts with
      | [] => none
      | f :: ts => parseLoop maxcmds ts done { c with outfile := some f, append := false }
    else if t = appendText then
      match ts with
      | [] => none
      | f :: ts => parseLoop maxcmds ts done { c with outfile := some f, append := true }
    else parseLoop maxcmds ts done (c.addArg t)

/-- `parse_pipeline`: `none` for -1, otherwise `cmds[0..nc)`. -/
def parsePipeline (tokens : List Text) (maxcmds : Nat) : Option (List Cmd) :=
  parseLoop maxcmds tokens [] Cmd.zero

/-! ## The commands that are run -/

/-- What `builtin` does: it exits, it returns 1, or it returns 0. -/
inductive Builtin
  | exits (status : Int32)
  | handled
  | none
  deriving DecidableEq, Repr

/-- `builtin`, for the current directory's part of which only that it returns 1 matters here. -/
def builtin (c : Cmd) : Builtin :=
  match c.argv with
  | [] => .handled
  | cmd :: args =>
    if cmd = ['e', 'x', 'i', 't'].map Char.toUInt8 then .exits ((args.head?.map atoi).getD 0)
    else if cmd = ['c', 'd'].map Char.toUInt8 ∨ cmd = ['p', 'w', 'd'].map Char.toUInt8 then
      .handled
    else .none

/-- The commands for which `run_pipeline` calls `run_child`, each in a child of its own, unless a
pipe or a child cannot be made. -/
def runPipeline (cmds : List Cmd) : List Cmd :=
  match cmds with
  | [c] => if builtin c = .none then [c] else []
  | cmds => cmds

/-! ## The grammar -/

inductive Redirect
  | input
  | output
  | append
  deriving DecidableEq, Repr

def Redirect.text : Redirect → Text
  | .input => inputText
  | .output => outputText
  | .append => appendText

/-- An operator, as a token. -/
def IsOp (t : Text) : Prop := t = pipeText ∨ t = inputText ∨ t = outputText ∨ t = appendText

instance (t : Text) : Decidable (IsOp t) := inferInstanceAs (Decidable (_ ∨ _))

/-- A part of a command: a word, or a redirection with its operand. -/
inductive Item
  | word (t : Text)
  | redirect (r : Redirect) (f : Text)
  deriving DecidableEq, Repr

/-- The commands that a list of tokens falls into, when each redirection takes the token behind it
for its operand. -/
inductive Stages : List Text → List (List Item) → Prop
  | nil : Stages [] [[]]
  | pipe {ts : List Text} {cs : List (List Item)} : Stages ts cs →
      Stages (pipeText :: ts) ([] :: cs)
  | word {t : Text} {ts : List Text} {items : List Item} {cs : List (List Item)} :
      ¬IsOp t → Stages ts (items :: cs) → Stages (t :: ts) ((.word t :: items) :: cs)
  | redirect (r : Redirect) (f : Text) {ts : List Text} {items : List Item}
      {cs : List (List Item)} : Stages ts (items :: cs) →
      Stages (r.text :: f :: ts) ((.redirect r f :: items) :: cs)

def Item.arg? : Item → Option Text
  | .word t => some t
  | .redirect _ _ => none

def Item.infile? : Item → Option Text
  | .redirect .input f => some f
  | _ => none

/-- The operand of an output redirection, and whether it appends. -/
def Item.outfile? : Item → Option (Text × Bool)
  | .redirect .output f => some (f, false)
  | .redirect .append f => some (f, true)
  | _ => none

/-- A command in the grammar: it has a word, and no operand is an operator. -/
structure Proper (items : List Item) : Prop where
  word : ∃ t, Item.word t ∈ items
  operand : ∀ r f, Item.redirect r f ∈ items → ¬IsOp f

/-- What a command is to hold: its words, the first 31, and its last redirections. -/
def Cmd.ofItems (items : List Item) : Cmd where
  argv := (items.filterMap Item.arg?).take (maxArgs - 1)
  infile := (items.filterMap Item.infile?).getLast?
  outfile := ((items.filterMap Item.outfile?).getLast?).map Prod.fst
  append := (((items.filterMap Item.outfile?).getLast?).map Prod.snd).getD false

/-- A list of tokens in the grammar, with its commands. -/
structure Pipeline (tokens : List Text) (cs : List (List Item)) : Prop where
  stages : Stages tokens cs
  length : cs.length ≤ maxCmds
  proper : ∀ items ∈ cs, Proper items

/-- The parser accepts the list exactly if it is in the grammar, `cmds` holds the commands, and
`run_child` gets no command without words. -/
structure ParsesGrammar (tokens : List Text) : Prop where
  accepts : ∀ cmds, parsePipeline tokens maxCmds = some cmds ↔
    ∃ cs, Pipeline tokens cs ∧ cmds = cs.map Cmd.ofItems
  words : ∀ cmds, parsePipeline tokens maxCmds = some cmds → ∀ c ∈ runPipeline cmds, c.argv ≠ []

/-! ## The parser against the grammar -/

/-- What the parser does for a part of a command. -/
def Cmd.addItem (c : Cmd) : Item → Cmd
  | .word t => c.addArg t
  | .redirect .input f => { c with infile := some f }
  | .redirect .output f => { c with outfile := some f, append := false }
  | .redirect .append f => { c with outfile := some f, append := true }

variable {ts : List Text}

theorem Stages.ne_nil {cs : List (List Item)} (h : Stages ts cs) : cs ≠ [] := by
  cases h <;> exact List.cons_ne_nil _ _

theorem Redirect.text_injective {r r' : Redirect} (h : r.text = r'.text) : r = r' := by
  cases r <;> cases r' <;> first | rfl | exact absurd h (by decide)

theorem Redirect.text_ne_pipe (r : Redirect) : r.text ≠ pipeText := by
  cases r <;> decide

theorem Redirect.isOp (r : Redirect) : IsOp r.text := by
  cases r <;> decide

/-- A list of tokens falls into commands in one way at most. -/
theorem Stages.unique {cs cs' : List (List Item)} (h : Stages ts cs) (h' : Stages ts cs') :
    cs = cs' := by
  induction h generalizing cs' with
  | nil => cases h'; rfl
  | pipe h ih =>
    generalize hts : pipeText :: _ = us at h'
    cases h' with
    | nil => cases hts
    | pipe h' => cases hts; rw [ih h']
    | word hop _ => cases hts; exact absurd (.inl rfl) hop
    | redirect r _ _ => exact absurd (List.cons.inj hts).1.symm r.text_ne_pipe
  | word hop h ih =>
    generalize hts : _ :: _ = us at h'
    cases h' with
    | nil => cases hts
    | pipe h' => cases hts; exact absurd (.inl rfl) hop
    | word _ h' =>
      cases hts
      obtain ⟨rfl, rfl⟩ := List.cons.inj (ih h')
      rfl
    | redirect r _ _ => exact absurd ((List.cons.inj hts).1 ▸ r.isOp) hop
  | redirect r f h ih =>
    generalize hts : r.text :: f :: _ = us at h'
    cases h' with
    | nil => cases hts
    | pipe h' => exact absurd (List.cons.inj hts).1 r.text_ne_pipe
    | word hop _ => exact absurd ((List.cons.inj hts).1 ▸ r.isOp) hop
    | redirect r' f' h' =>
      obtain ⟨hr, hrest⟩ := List.cons.inj hts
      obtain ⟨rfl, rfl⟩ := List.cons.inj hrest
      obtain rfl := Redirect.text_injective hr
      obtain ⟨rfl, rfl⟩ := List.cons.inj (ih h')
      rfl

/-- The commands that the loop returns: the first of them continues the current one. -/
def Completes (maxcmds : Nat) (ts : List Text) (done : List Cmd) (c : Cmd) (cmds : List Cmd) :
    Prop :=
  ∃ items cs, Stages ts (items :: cs) ∧ done.length + 1 + cs.length ≤ maxcmds ∧
    cmds = done ++ items.foldl Cmd.addItem c :: cs.map (List.foldl Cmd.addItem Cmd.zero)

variable {maxcmds : Nat} {done cmds : List Cmd} {c : Cmd}

/-- A redirection is added to the current command. -/
theorem completes_redirect (r : Redirect) (f : Text) :
    Completes maxcmds (r.text :: f :: ts) done c cmds ↔
      Completes maxcmds ts done (c.addItem (.redirect r f)) cmds := by
  constructor
  · rintro ⟨items, cs, hstages, hlength, hcmds⟩
    generalize hts : r.text :: f :: ts = us at hstages
    cases hstages with
    | nil => cases hts
    | pipe _ => exact absurd (List.cons.inj hts).1 r.text_ne_pipe
    | word hop _ => exact absurd ((List.cons.inj hts).1 ▸ r.isOp) hop
    | redirect r' f' h =>
      obtain ⟨hr, hrest⟩ := List.cons.inj hts
      obtain ⟨rfl, rfl⟩ := List.cons.inj hrest
      obtain rfl := Redirect.text_injective hr
      exact ⟨_, cs, h, hlength, hcmds⟩
  · rintro ⟨items, cs, hstages, hlength, hcmds⟩
    exact ⟨_, cs, .redirect r f hstages, hlength, hcmds⟩

/-- Behind a redirection there must be a token. -/
theorem not_completes_redirect (r : Redirect) : ¬Completes maxcmds [r.text] done c cmds := by
  rintro ⟨items, cs, hstages, -⟩
  generalize hts : [r.text] = us at hstages
  cases hstages with
  | nil => cases hts
  | pipe _ => exact absurd (List.cons.inj hts).1 r.text_ne_pipe
  | word hop _ => exact absurd ((List.cons.inj hts).1 ▸ r.isOp) hop
  | redirect r' f' h => cases (List.cons.inj hts).2

theorem completes_nil (hdone : done.length < maxcmds) (c : Cmd) (cmds : List Cmd) :
    Completes maxcmds [] done c cmds ↔ done ++ [c] = cmds := by
  constructor
  · rintro ⟨items, cs, hstages, -, rfl⟩
    cases hstages
    rfl
  · rintro rfl
    exact ⟨[], [], .nil, hdone, rfl⟩

/-- The current command is complete. -/
theorem completes_pipe : Completes maxcmds (pipeText :: ts) done c cmds ↔
      done.length + 1 < maxcmds ∧ Completes maxcmds ts (done ++ [c]) Cmd.zero cmds := by
  have hsnoc : (done ++ [c]).length = done.length + 1 := List.length_append
  constructor
  · rintro ⟨items, cs, hstages, hlength, hcmds⟩
    generalize hts : pipeText :: ts = us at hstages
    cases hstages with
    | nil => cases hts
    | pipe h =>
      cases hts
      obtain ⟨items', cs', rfl⟩ := List.exists_cons_of_ne_nil h.ne_nil
      rw [List.length_cons] at hlength
      refine ⟨by omega, items', cs', h, by omega, ?_⟩
      rw [hcmds, List.append_assoc]
      rfl
    | word hop _ => cases hts; exact absurd (.inl rfl) hop
    | redirect r _ _ => exact absurd (List.cons.inj hts).1.symm r.text_ne_pipe
  · rintro ⟨-, items, cs, hstages, hlength, hcmds⟩
    refine ⟨[], items :: cs, .pipe hstages, ?_, ?_⟩
    · rw [List.length_cons]
      omega
    · rw [hcmds, List.append_assoc]
      rfl

/-- A word is added to the current command. -/
theorem completes_word {t : Text} (ht : ¬IsOp t) : Completes maxcmds (t :: ts) done c cmds ↔
      Completes maxcmds ts done (c.addArg t) cmds := by
  constructor
  · rintro ⟨items, cs, hstages, hlength, hcmds⟩
    generalize hts : t :: ts = us at hstages
    cases hstages with
    | nil => cases hts
    | pipe _ => cases hts; exact absurd (.inl rfl) ht
    | word hop h => cases hts; exact ⟨_, cs, h, hlength, hcmds⟩
    | redirect r _ _ => exact absurd ((List.cons.inj hts).1 ▸ r.isOp) ht
  · rintro ⟨items, cs, hstages, hlength, hcmds⟩
    exact ⟨_, cs, .word ht hstages, hlength, hcmds⟩

/-- The loop returns the commands that the tokens fall into. -/
theorem parseLoop_eq_some (ts : List Text) (hdone : done.length < maxcmds) (cmds : List Cmd) :
    parseLoop maxcmds ts done c = some cmds ↔ Completes maxcmds ts done c cmds := by
  fun_induction parseLoop maxcmds ts done c with
  | case1 done c => rw [completes_nil hdone, Option.some_inj]
  | case2 ts done c hfull =>
    rw [completes_pipe]
    exact ⟨fun h ↦ (by cases h), fun h ↦ absurd h.1 (Nat.not_lt.mpr hfull)⟩
  | case3 ts done c hfull ih =>
    have hroom := Nat.lt_of_not_le hfull
    rw [completes_pipe, ih (by rw [List.length_append]; exact hroom)]
    exact ⟨fun h ↦ ⟨hroom, h⟩, fun h ↦ h.2⟩
  | case4 => exact ⟨fun h ↦ (by cases h), fun h ↦ absurd h (not_completes_redirect .input)⟩
  | case5 done c f ts hne ih =>
    rw [ih hdone]
    exact (completes_redirect .input f).symm
  | case6 => exact ⟨fun h ↦ (by cases h), fun h ↦ absurd h (not_completes_redirect .output)⟩
  | case7 done c f ts hpipe hinput ih =>
    rw [ih hdone]
    exact (completes_redirect .output f).symm
  | case8 => exact ⟨fun h ↦ (by cases h), fun h ↦ absurd h (not_completes_redirect .append)⟩
  | case9 done c f ts hpipe hinput houtput ih =>
    rw [ih hdone]
    exact (completes_redirect .append f).symm
  | case10 t ts done c hpipe hinput houtput happend ih =>
    have ht : ¬IsOp t := by
      rintro (h | h | h | h)
      · exact hpipe h
      · exact hinput h
      · exact houtput h
      · exact happend h
    rw [ih hdone, completes_word ht]

theorem take_snoc (l : List Text) (t : Text) (n : Nat) : (l ++ [t]).take n =
    if (l.take n).length < n then l.take n ++ [t] else l.take n := by
  rw [List.length_take]
  split
  case isTrue h =>
    have hlt : l.length < n := by omega
    rw [List.take_of_length_le hlt.le, List.take_of_length_le]
    rw [List.length_append]
    exact hlt
  case isFalse h => exact List.take_append_of_le_length (by omega)

/-- Adding the parts of a command one by one gives what it is to hold. -/
theorem foldl_addItem (items : List Item) :
    items.foldl Cmd.addItem Cmd.zero = Cmd.ofItems items := by
  induction items using List.reverseRecOn with
  | nil => rfl
  | append_singleton items it ih =>
    rw [List.foldl_append, ih]
    cases it with
    | word t =>
      change (Cmd.ofItems items).addArg t = _
      have hargs : (items ++ [Item.word t]).filterMap Item.arg? =
          items.filterMap Item.arg? ++ [t] := List.filterMap_append
      have hin : (items ++ [Item.word t]).filterMap Item.infile? =
          items.filterMap Item.infile? := by simp [Item.infile?]
      have hout : (items ++ [Item.word t]).filterMap Item.outfile? =
          items.filterMap Item.outfile? := by simp [Item.outfile?]
      have hsnoc := take_snoc (items.filterMap Item.arg?) t (maxArgs - 1)
      by_cases h : (Cmd.ofItems items).argv.length < maxArgs - 1
      · replace hsnoc := hsnoc.trans (if_pos h)
        rw [Cmd.addArg, if_pos h]
        simp only [Cmd.ofItems, hargs, hin, hout, hsnoc]
      · replace hsnoc := hsnoc.trans (if_neg h)
        rw [Cmd.addArg, if_neg h]
        simp only [Cmd.ofItems, hargs, hin, hout, hsnoc]
    | redirect r f =>
      cases r <;> simp [Cmd.ofItems, Cmd.addItem, Item.arg?, Item.infile?, Item.outfile?]

theorem parsePipeline_eq_some (tokens : List Text) (cmds : List Cmd) :
    parsePipeline tokens maxCmds = some cmds ↔
      ∃ cs, Stages tokens cs ∧ cs.length ≤ maxCmds ∧ cmds = cs.map Cmd.ofItems := by
  have hfold : List.foldl Cmd.addItem Cmd.zero = Cmd.ofItems := funext foldl_addItem
  rw [parsePipeline, parseLoop_eq_some tokens (by decide) cmds, Completes, hfold]
  constructor
  · rintro ⟨items, cs, hstages, hlength, rfl⟩
    refine ⟨items :: cs, hstages, ?_, ?_⟩
    · rw [List.length_cons]
      simpa [Nat.add_comm] using hlength
    · rfl
  · rintro ⟨cs, hstages, hlength, rfl⟩
    obtain ⟨items, cs, rfl⟩ := List.exists_cons_of_ne_nil hstages.ne_nil
    refine ⟨items, cs, hstages, ?_, ?_⟩
    · simpa [Nat.add_comm] using hlength
    · rfl

/-! ## The result -/

/-- A command with a word has one in `argv`. -/
theorem Proper.argv_ne_nil {items : List Item} (h : Proper items) :
    (Cmd.ofItems items).argv ≠ [] := by
  obtain ⟨t, ht⟩ := h.word
  have hmem : t ∈ items.filterMap Item.arg? := List.mem_filterMap.mpr ⟨.word t, ht, rfl⟩
  intro hnil
  rcases List.take_eq_nil_iff.mp hnil with hzero | hnil
  · cases hzero
  · rw [hnil] at hmem
    cases hmem

theorem runPipeline_subset (h : c ∈ runPipeline cmds) : c ∈ cmds := by
  unfold runPipeline at h
  split at h
  · split at h
    · exact h
    · cases h
  · exact h

/-- **The pipeline parser accepts its grammar** exactly on the lists that it rejects — for an
operand that is missing or a command too many — and on those in which every command has a word and
no operand is an operator. -/
theorem parses_grammar_iff (tokens : List Text) : ParsesGrammar tokens ↔
    ∀ cs, Stages tokens cs → cs.length ≤ maxCmds → ∀ items ∈ cs, Proper items := by
  constructor
  · intro h cs hstages hlength
    have haccepts := (parsePipeline_eq_some tokens _).mpr ⟨cs, hstages, hlength, rfl⟩
    obtain ⟨cs', hpipeline, -⟩ := (h.accepts _).mp haccepts
    rw [hstages.unique hpipeline.stages]
    exact hpipeline.proper
  · intro h
    refine ⟨fun cmds ↦ ?_, fun cmds hcmds c hc ↦ ?_⟩
    · rw [parsePipeline_eq_some]
      constructor
      · rintro ⟨cs, hstages, hlength, hcmds⟩
        exact ⟨cs, ⟨hstages, hlength, h cs hstages hlength⟩, hcmds⟩
      · rintro ⟨cs, hpipeline, hcmds⟩
        exact ⟨cs, hpipeline.stages, hpipeline.length, hcmds⟩
    · obtain ⟨cs, hstages, hlength, rfl⟩ := (parsePipeline_eq_some tokens cmds).mp hcmds
      obtain ⟨items, hitems, rfl⟩ := List.mem_map.mp (runPipeline_subset hc)
      exact (h cs hstages hlength items hitems).argv_ne_nil

/-- The tokens `ls` and `|`: the parser returns two commands, and the second one, for which
`run_child` is called, has no words. -/
theorem empty_stage_accepted :
    parsePipeline [['l', 's'].map Char.toUInt8, pipeText] maxCmds =
        some [Cmd.ofItems [.word (['l', 's'].map Char.toUInt8)], Cmd.zero] ∧
      Cmd.zero ∈ runPipeline [Cmd.ofItems [.word (['l', 's'].map Char.toUInt8)], Cmd.zero] ∧
      ¬ParsesGrammar [['l', 's'].map Char.toUInt8, pipeText] := by
  refine ⟨by decide, by decide, fun h ↦ ?_⟩
  exact h.words _ rfl Cmd.zero (by decide) rfl

end FentoOS.Shell
