import Mathlib.Data.List.DropRight
import Mathlib.Logic.Function.Basic
import Spira.Lib.Text

/-!
# Resuming a suite that passed before

A suite that passed is not run again where its pass still counts.  A run records each pass twice
in a store that all runs share: under its own tree, and, where the suite has a digest of its
inputs, under that digest, beside at most seven earlier ones.  The environment the pass counts in
is part of both keys, as the digest of one line of text (`resumeLine`).

A record names what it is a record of, so what is read under a key is believed only if it is that
key's; `Genuine` is a text that a recorded pass accounts for.  Every text written is genuine,
whatever the order in which runs read and write (`genuine_run`), and so an answer is a pass that
was recorded (`resumed_pass_is_recorded`).

The line leaves out the tests a run was filtered to, the crates it selected and its runner, which
the verdict's own key has.  So an answer is a pass of the same environment only where no two runs
differ in what the line does not tell (`passes_resume`).
-/

set_option autoImplicit false

namespace Spira.Testenv

/-! ## What a run is of -/

inductive Mode
  | parallel
  | serial
  deriving DecidableEq

def Mode.asStr : Mode → String
  | .parallel => "parallel"
  | .serial => "serial"

/-- Who decided which suites to run. -/
inductive Producer
  | explicit
  | diff
  | all
  deriving DecidableEq

def Producer.asStr : Producer → String
  | .explicit => "explicit"
  | .diff => "diff"
  | .all => "all"

/-- The commit the crate list was diffed from, and that list. -/
structure UnitSelection where
  base : String
  crates : List String
  deriving DecidableEq

/-- Everything that makes two runs the same claim. -/
structure KeyInputs where
  repoName : String
  tree : String
  imageTag : String
  suites : List String
  harnessHash : String
  mode : Mode
  producer : Producer
  profile : String
  artifactsId : Option String := none
  tests : Option String := none
  unit : Option UnitSelection := none
  runner : Option String := none
  deriving DecidableEq

/-- The line whose digest is the environment a pass is reusable under. -/
def KeyInputs.resumeLine (k : KeyInputs) : String :=
  let prebuilt := (k.artifactsId.map (" prebuilt=" ++ ·)).getD ""
  "resume " ++ k.imageTag ++ " " ++ k.harnessHash ++ " " ++ k.mode.asStr ++ " " ++ k.producer.asStr ++
    " " ++ k.profile ++ prebuilt ++ "\n"

/-- Two runs are the same claim but for the repository, the tree and the suites. -/
def KeyInputs.SameEnv (k l : KeyInputs) : Prop :=
  { k with repoName := l.repoName, tree := l.tree, suites := l.suites } = l

instance (k l : KeyInputs) : Decidable (k.SameEnv l) := inferInstanceAs (Decidable (_ = _))

/-! ## The records of a run -/

def magic : String := "testenv-resume-v2"
def magicInputs : String := "testenv-resume-inputs-v1"
def inputsKept : ℕ := 8

/-- A name that may be part of a key. -/
def safe (seg : String) : Bool :=
  seg ≠ "" && seg.toList.all (fun c ↦ c ≠ '/' && c ≠ '\n' && c ≠ ' ' && c ≠ '\r') && seg ≠ "." &&
    seg ≠ ".."

/-- What a run gives its store. -/
structure Run where
  inputs : KeyInputs
  attempt : String
  /-- Whether an attempt of the job came before. -/
  priorAttempt : Bool
  /-- The digest of each suite's inputs, of the suites that have one. -/
  digests : List (String × String)

namespace Run

-- `sha` is SHA-256, in hex
variable (sha : String → String) (r : Run)

def repo : String := r.inputs.repoName
def tree : String := r.inputs.tree
def envKey : String := sha r.inputs.resumeLine

def inputsOf : List (String × String) := r.digests.filter fun e ↦ safe e.1 && safe e.2

/-- The suite's digest, by which it resumes on other trees. -/
def digest (suite : String) : Option String := r.inputsOf.lookup suite

def treePrefix : String := r.repo ++ "/" ++ r.tree ++ "/" ++ r.envKey sha
def inputsPrefix : String := r.repo ++ "/inputs/" ++ r.envKey sha

/-- Whether the run looks up the passes of its tree. -/
def looksUpTree : Bool := r.priorAttempt && safe r.repo && safe r.tree && safe (r.envKey sha)

/-- Whether the run looks up the passes by inputs. -/
def looksUpInputs : Bool := !r.inputsOf.isEmpty && safe r.repo && safe (r.envKey sha)

/-- The key of the suite's record, where every part of it is safe. -/
def key (suite : String) : Option String :=
  if safe r.repo && safe r.tree && safe (r.envKey sha) && safe suite then
    some (r.treePrefix sha ++ "/" ++ suite)
  else none

/-- The words of a line, each ending in a blank. -/
def wordsOf (ws : List String) : List Char := ws.flatMap fun w ↦ w.toList ++ [' ']

/-- The record of a pass on the run's tree. -/
def body (suite : String) : List Char :=
  wordsOf [magic, r.repo, r.tree, r.envKey sha, suite] ++ r.attempt.toList ++ ['\n']

end Run

/-- The first line of the record of a suite's passes by inputs. -/
def inputsHeader (repo env suite : String) : List Char :=
  Run.wordsOf [magicInputs, repo, env] ++ suite.toList

/-- One pass by inputs: the digest and the attempt. -/
def inputsLine (p : String × String) : List Char := p.1.toList ++ ' ' :: p.2.toList

/-- The record of a suite's passes by inputs, newest first. -/
def inputsBody (repo env suite : String) (lines : List (String × String)) : List Char :=
  (inputsHeader repo env suite :: lines.map inputsLine).flatMap fun l ↦ l ++ ['\n']

/-- A line of that record, if it is one. -/
def parseInputsLine (l : List Char) : Option (String × String) :=
  match Text.splitOnce ' ' l with
  | some (d, a) =>
    if safe (String.ofList d) && a ≠ [] && !a.contains ' ' then
      some (String.ofList d, String.ofList a)
    else none
  | none => none

/-- The lines of a record of passes by inputs; none on any doubt. -/
def inputsLines (repo env suite : String) (text : Option (List Char)) : List (String × String) :=
  match text.map (Text.linesFrom []) with
  | some (header :: rest) =>
    if header = inputsHeader repo env suite then rest.filterMap parseInputsLine else []
  | _ => []

/-- The attempt a record of a pass on a tree names, if it is of this repository, tree, environment
and suite. -/
def treeAttempt (repo tree env suite : String) (text : Option (List Char)) : Option String :=
  match text.map fun t ↦ ((t.rdropWhile (· = '\n')).splitOn ' ').map String.ofList with
  | some [m, r, t, e, s, attempt] =>
    if m = magic ∧ r = repo ∧ t = tree ∧ e = env ∧ s = suite ∧ attempt ≠ "" then some attempt else none
  | _ => none

/-! ## Runs over one store -/

/-- The store, what each run's lookups have found in it, the writes started and not yet done, and
the passes recorded so far. -/
structure State where
  backend : String → Option (List Char) := fun _ ↦ none
  records : ℕ → String → Option (List Char) := fun _ _ ↦ none
  byInputs : ℕ → String → Option (List Char) := fun _ _ ↦ none
  pending : List (String × List Char) := []
  passes : List (ℕ × String) := []

/-- What happens at one point in time.  A lookup reads the records under its prefix one at a time,
and one it could not read is not in what it found. -/
inductive Event
  /-- The run's lookup reads the record of a suite on its tree. -/
  | lookUpTree (run : ℕ) (name : String)
  /-- The run's lookup reads the record of a suite's passes by inputs. -/
  | lookUpInputs (run : ℕ) (name : String)
  /-- The run records a pass of a suite: its writes begin. -/
  | record (run : ℕ) (suite : String)
  /-- A write that has begun is done. -/
  | put (n : ℕ)

section Store

variable (sha : String → String) (runs : ℕ → Run)

/-- The suite's passes by inputs, as the run's lookup found them. -/
def State.linesOf (s : State) (i : ℕ) (suite : String) : List (String × String) :=
  inputsLines (runs i).repo ((runs i).envKey sha) suite (s.byInputs i suite)

/-- The write that keeps a pass by inputs, before those of other inputs. -/
def State.inputsPut (s : State) (i : ℕ) (suite d : String) : String × List Char :=
  ((runs i).inputsPrefix sha ++ "/" ++ suite,
    inputsBody (runs i).repo ((runs i).envKey sha) suite ((d, (runs i).attempt) ::
      ((s.linesOf sha runs i suite).filter (·.1 ≠ d)).take (inputsKept - 1)))

def State.step (s : State) : Event → State
  | .lookUpTree i name =>
    if (runs i).looksUpTree sha then
      { s with records := Function.update s.records i (Function.update (s.records i) name
          (s.backend ((runs i).treePrefix sha ++ "/" ++ name))) }
    else s
  | .lookUpInputs i name =>
    if (runs i).looksUpInputs sha then
      { s with byInputs := Function.update s.byInputs i (Function.update (s.byInputs i) name
          (s.backend ((runs i).inputsPrefix sha ++ "/" ++ name))) }
    else s
  | .record i suite =>
    match (runs i).key sha suite with
    | none => s
    | some key =>
      { s with
        pending := s.pending ++ (key, (runs i).body sha suite) ::
          (((runs i).digest suite).map (s.inputsPut sha runs i suite)).toList
        passes := s.passes ++ [(i, suite)] }
  | .put n =>
    match s.pending[n]? with
    | none => s
    | some (key, text) =>
      { s with backend := Function.update s.backend key (some text), pending := s.pending.eraseIdx n }

/-- The store after a history of runs. -/
def after (events : List Event) : State := events.foldl (·.step sha runs) {}

/-- The attempt that passed the suite for this tree, or for one with the same inputs; none on any
doubt. -/
def State.passed (s : State) (i : ℕ) (suite : String) : Option String :=
  if ((runs i).key sha suite).isSome then
    (treeAttempt (runs i).repo (runs i).tree ((runs i).envKey sha) suite (s.records i suite)).or
      (((runs i).digest suite).bind fun d ↦
        ((s.linesOf sha runs i suite).find? (·.1 = d)).map (·.2))
  else none

end Store

/-! ## Words and lines -/

/-- An attempt that stays one word's end of one line. -/
def Clean (attempt : String) : Prop :=
  '\n' ∉ attempt.toList ∧ attempt.toList.getLast? ≠ some '\r'

section Words

variable {c : Char} {w w' : String} {ws ws' : List String} {l l' : List Char}

theorem notMem_of_safe (h : safe w) (hc : c = '/' ∨ c = '\n' ∨ c = ' ' ∨ c = '\r') :
    c ∉ w.toList := by
  intro hmem
  simp only [safe, Bool.and_eq_true, List.all_eq_true, decide_eq_true_eq] at h
  obtain ⟨⟨⟨-, hall⟩, -⟩, -⟩ := h
  obtain ⟨⟨⟨h₁, h₂⟩, h₃⟩, h₄⟩ := hall c hmem
  simp_all

theorem wordsOf_cons : Run.wordsOf (w :: ws) ++ l = w.toList ++ ' ' :: (Run.wordsOf ws ++ l) := by
  simp [Run.wordsOf]

/-- Words without blanks are read back by splitting at blanks. -/
theorem splitOn_wordsOf (h : ∀ w ∈ ws, ' ' ∉ w.toList) :
    (Run.wordsOf ws ++ l).splitOn ' ' = ws.map String.toList ++ l.splitOn ' ' := by
  induction ws with
  | nil => rfl
  | cons w ws ih =>
    obtain ⟨hw, hws⟩ := List.forall_mem_cons.mp h
    rw [wordsOf_cons, List.splitOn_append_cons_self, List.splitOn_eq_singleton hw, ih hws]
    rfl

theorem word_inj (hw : ' ' ∉ w.toList) (hw' : ' ' ∉ w'.toList)
    (h : w.toList ++ ' ' :: l = w'.toList ++ ' ' :: l') : w = w' ∧ l = l' := by
  have heq := congrArg (Text.splitOnce ' ') h
  rw [Text.splitOnce_cons hw, Text.splitOnce_cons hw'] at heq
  obtain ⟨hwords, hrest⟩ := Prod.mk.inj (Option.some.inj heq)
  exact ⟨String.toList_injective hwords, hrest⟩

theorem wordsOf_inj : ∀ {ws ws' : List String}, ws.length = ws'.length →
    (∀ w ∈ ws, ' ' ∉ w.toList) → (∀ w ∈ ws', ' ' ∉ w.toList) →
    Run.wordsOf ws ++ l = Run.wordsOf ws' ++ l' → ws = ws' ∧ l = l'
  | [], [], _, _, _, h => ⟨rfl, h⟩
  | w :: ws, w' :: ws', hlen, hall, hall', h => by
    obtain ⟨hw, hws⟩ := List.forall_mem_cons.mp hall
    obtain ⟨hw', hws'⟩ := List.forall_mem_cons.mp hall'
    rw [wordsOf_cons, wordsOf_cons] at h
    obtain ⟨rfl, hrest⟩ := word_inj hw hw' h
    obtain ⟨rfl, hl⟩ := wordsOf_inj (Nat.succ.inj hlen) hws hws' hrest
    exact ⟨rfl, hl⟩

theorem notMem_wordsOf (hc : c ≠ ' ') (h : ∀ w ∈ ws, c ∉ w.toList) : c ∉ Run.wordsOf ws := by
  rw [Run.wordsOf, List.mem_flatMap]
  rintro ⟨w, hw, hmem⟩
  obtain hmem | hmem := List.mem_append.mp hmem
  · exact h w hw hmem
  · exact hc (List.mem_singleton.mp hmem)

/-- The line feeds at the end of what follows a word are all that is cut. -/
theorem rdropWhile_word :
    (w.toList ++ ' ' :: l).rdropWhile (· = '\n') = w.toList ++ ' ' :: l.rdropWhile (· = '\n') := by
  induction l using List.reverseRecOn with
  | nil =>
    rw [List.rdropWhile_concat_neg _ _ _ (by decide)]
    rfl
  | append_singleton l c ih =>
    by_cases hc : c = '\n'
    · rw [← List.cons_append, ← List.append_assoc, List.rdropWhile_concat_pos _ _ _ (by simpa using hc),
        ih, List.rdropWhile_concat_pos _ _ _ (by simpa using hc)]
    · rw [← List.cons_append, ← List.append_assoc, List.rdropWhile_concat_neg _ _ _ (by simpa using hc),
        List.rdropWhile_concat_neg _ _ _ (by simpa using hc), List.append_assoc, List.cons_append]

theorem rdropWhile_wordsOf : (Run.wordsOf ws ++ l).rdropWhile (· = '\n') =
    Run.wordsOf ws ++ l.rdropWhile (· = '\n') := by
  induction ws with
  | nil => rfl
  | cons w ws ih => rw [wordsOf_cons, rdropWhile_word, ih, wordsOf_cons]

end Words

/-! ## Genuine texts -/

section Genuine

variable {sha : String → String} {runs : ℕ → Run} {passes more : List (ℕ × String)}
  {repo tree env suite : String} {text : List Char}

/-- Some run recorded a pass of the suite, in this repository and environment, by these inputs,
under this attempt. -/
def Recorded (sha : String → String) (runs : ℕ → Run) (passes : List (ℕ × String))
    (repo env suite : String) (p : String × String) : Prop :=
  ∃ j, (j, suite) ∈ passes ∧ (runs j).repo = repo ∧ (runs j).envKey sha = env ∧
    (runs j).digest suite = some p.1 ∧ (runs j).attempt = p.2

/-- A text that recorded passes account for. -/
inductive Genuine (sha : String → String) (runs : ℕ → Run) (passes : List (ℕ × String)) :
    List Char → Prop
  | tree {j : ℕ} {suite : String} (hmem : (j, suite) ∈ passes)
      (hkey : ((runs j).key sha suite).isSome) : Genuine sha runs passes ((runs j).body sha suite)
  | inputs {repo env suite : String} {lines : List (String × String)} (hrepo : safe repo)
      (henv : safe env) (hsuite : safe suite)
      (hlines : ∀ p ∈ lines, safe p.1 ∧ Clean p.2 ∧ Recorded sha runs passes repo env suite p) :
      Genuine sha runs passes (inputsBody repo env suite lines)

theorem Recorded.append {p : String × String} (h : Recorded sha runs passes repo env suite p) :
    Recorded sha runs (passes ++ more) repo env suite p := by
  obtain ⟨j, hmem, h⟩ := h
  exact ⟨j, List.mem_append_left _ hmem, h⟩

theorem Genuine.append (h : Genuine sha runs passes text) :
    Genuine sha runs (passes ++ more) text := by
  cases h with
  | tree hmem hkey => exact .tree (List.mem_append_left _ hmem) hkey
  | inputs hrepo henv hsuite hlines =>
    refine .inputs hrepo henv hsuite fun p hp ↦ ?_
    obtain ⟨hd, ha, hrec⟩ := hlines p hp
    exact ⟨hd, ha, hrec.append⟩

theorem key_safe {r : Run} (h : (r.key sha suite).isSome) :
    safe r.repo ∧ safe r.tree ∧ safe (r.envKey sha) ∧ safe suite := by
  rw [Run.key] at h
  split at h
  · rename_i hs
    simpa only [Bool.and_eq_true, and_assoc] using hs
  · cases h

theorem noBlank_of_safe {ws : List String} (h : ∀ w ∈ ws, safe w) : ∀ w ∈ ws, ' ' ∉ w.toList :=
  fun w hw ↦ notMem_of_safe (h w hw) (.inr (.inr (.inl rfl)))

/-- What a record of a pass on a tree says is what the run that wrote it is. -/
theorem treeAttempt_body {j : ℕ} {s a : String} (hclean : Clean (runs j).attempt)
    (hkey : ((runs j).key sha s).isSome)
    (h : treeAttempt repo tree env suite (some ((runs j).body sha s)) = some a) :
    s = suite ∧ (runs j).repo = repo ∧ (runs j).tree = tree ∧ (runs j).envKey sha = env ∧
      (runs j).attempt = a := by
  obtain ⟨hr, ht, he, hs⟩ := key_safe hkey
  have hwords : ∀ w ∈ [magic, (runs j).repo, (runs j).tree, (runs j).envKey sha, s],
      ' ' ∉ w.toList := noBlank_of_safe (by simp [hr, ht, he, hs]; decide)
  have hcut : ((runs j).attempt.toList ++ ['\n']).rdropWhile (· = '\n') =
      (runs j).attempt.toList := by
    rw [List.rdropWhile_concat_pos _ _ _ (by decide), List.rdropWhile_eq_self_iff]
    intro hne hlast
    have hlast : (runs j).attempt.toList.getLast hne = '\n' := by simpa using hlast
    exact hclean.1 (hlast ▸ List.getLast_mem hne)
  rw [treeAttempt, Option.map_some, Run.body, List.append_assoc, rdropWhile_wordsOf, hcut,
    splitOn_wordsOf hwords] at h
  split at h
  · rename_i heq
    have hsplit := Option.some.inj heq
    simp only [List.map_cons, List.map_nil, List.cons_append, List.nil_append,
      String.ofList_toList, List.cons.injEq] at hsplit
    obtain ⟨rfl, rfl, rfl, rfl, rfl, hrest⟩ := hsplit
    split at h
    · rename_i hcond
      obtain ⟨-, hr', ht', he', hs', -⟩ := hcond
      refine ⟨hs', hr', ht', he', ?_⟩
      cases h
      obtain ⟨w, hw, hword⟩ := List.map_eq_singleton_iff.mp hrest
      have hjoin : [' '].intercalate ((runs j).attempt.toList.splitOn ' ') = _ :=
        List.intercalate_splitOn ' '
      rw [hw, List.intercalate_singleton] at hjoin
      rw [← hword, hjoin, String.ofList_toList]
    · cases h
  · cases h

/-- A record of passes by inputs is none of a pass on a tree. -/
theorem treeAttempt_inputs {r e s : String} {lines : List (String × String)} :
    treeAttempt repo tree env suite (some (inputsBody r e s lines)) = none := by
  rw [treeAttempt, Option.map_some, inputsBody, List.flatMap_cons, inputsHeader, List.append_assoc,
    List.append_assoc, wordsOf_cons, rdropWhile_word, List.splitOn_append_cons_self,
    List.splitOn_eq_singleton (by decide)]
  split
  · rename_i heq
    have hfirst := (List.cons.inj (Option.some.inj heq)).1
    rw [if_neg]
    rintro ⟨hm, -⟩
    rw [← hfirst, String.ofList_toList] at hm
    exact absurd hm (by decide)
  · rfl

/-- A record of a pass on a tree is none of passes by inputs. -/
theorem inputsLines_body {r : Run} {s : String} (hclean : Clean r.attempt)
    (hkey : (r.key sha s).isSome) : inputsLines repo env suite (some (r.body sha s)) = [] := by
  obtain ⟨hr, ht, he, hs⟩ := key_safe hkey
  have hwords : ∀ w ∈ [magic, r.repo, r.tree, r.envKey sha, s], '\n' ∉ w.toList := fun w hw ↦ by
    have hsafe : safe w := by
      revert w
      simp [hr, ht, he, hs]
      decide
    exact notMem_of_safe hsafe (.inr (.inl rfl))
  have hline : '\n' ∉ Run.wordsOf [magic, r.repo, r.tree, r.envKey sha, s] ++ r.attempt.toList := by
    rw [List.mem_append, not_or]
    exact ⟨notMem_wordsOf (by decide) hwords, hclean.1⟩
  rw [inputsLines, Option.map_some, Run.body, Text.linesFrom_append hline]
  change (if _ then List.filterMap parseInputsLine (Text.linesFrom [] []) else []) = []
  split <;> rfl

theorem parseInputsLine_line {p q : String × String} (hd : safe p.1)
    (h : parseInputsLine (inputsLine p) = some q) : q = p := by
  rw [parseInputsLine, inputsLine,
    Text.splitOnce_cons (notMem_of_safe hd (.inr (.inr (.inl rfl))))] at h
  dsimp only at h
  split at h
  · rw [String.ofList_toList, String.ofList_toList] at h
    exact (Option.some.inj h).symm
  · cases h

/-- What a record of passes by inputs says, it says of the repository, environment and suite it was
written for, and every line of it is one that was written. -/
theorem inputsLines_inputs {r e s : String} {lines : List (String × String)} (hr : safe r)
    (he : safe e) (hs : safe s) (hlines : ∀ p ∈ lines, safe p.1 ∧ Clean p.2) (hrepo : safe repo)
    (henv : safe env) {p : String × String}
    (h : p ∈ inputsLines repo env suite (some (inputsBody r e s lines))) :
    r = repo ∧ e = env ∧ s = suite ∧ p ∈ lines := by
  have hheader : ∀ c, c = '\n' ∨ c = '\r' → c ∉ inputsHeader r e s := by
    intro c hc hmem
    have hbad : c = '/' ∨ c = '\n' ∨ c = ' ' ∨ c = '\r' := by tauto
    obtain hmem | hmem := List.mem_append.mp hmem
    · refine notMem_wordsOf (by rintro rfl; simp at hc) (fun w hw ↦ ?_) hmem
      have hsafe : safe w := by
        revert w
        simp [hr, he]
        decide
      exact notMem_of_safe hsafe hbad
    · exact notMem_of_safe hs hbad hmem
  have hread : Text.linesFrom [] (inputsBody r e s lines) =
      inputsHeader r e s :: lines.map inputsLine := by
    rw [inputsBody, Text.linesFrom_flatMap, List.map_id']
    · intro l hl
      obtain rfl | hl := List.mem_cons.mp hl
      · exact hheader _ (.inl rfl)
      · obtain ⟨q, hq, rfl⟩ := List.mem_map.mp hl
        obtain ⟨hd, ha⟩ := hlines q hq
        rw [inputsLine, List.mem_append, List.mem_cons]
        rintro (h | h | h)
        · exact notMem_of_safe hd (.inr (.inl rfl)) h
        · exact absurd h (by decide)
        · exact ha.1 h
    · intro l hl
      obtain rfl | hl := List.mem_cons.mp hl
      · exact fun h ↦ hheader _ (.inr rfl) (List.mem_of_getLast? h)
      · obtain ⟨q, hq, rfl⟩ := List.mem_map.mp hl
        obtain ⟨-, ha⟩ := hlines q hq
        rw [inputsLine, List.getLast?_append, List.getLast?_cons, Option.some_or]
        intro hlast
        cases hq2 : q.2.toList.getLast? with
        | none =>
          rw [hq2] at hlast
          exact absurd hlast (by decide)
        | some c =>
          rw [hq2] at hlast
          exact ha.2 (hq2.trans hlast)
  rw [inputsLines, Option.map_some, hread] at h
  dsimp only at h
  split at h
  · rename_i heq
    have hlen : [magicInputs, r, e].length = [magicInputs, repo, env].length := rfl
    have hwritten : ∀ w ∈ [magicInputs, r, e], ' ' ∉ w.toList :=
      noBlank_of_safe (by simp [hr, he]; decide)
    have hasked : ∀ w ∈ [magicInputs, repo, env], ' ' ∉ w.toList :=
      noBlank_of_safe (by simp [hrepo, henv]; decide)
    obtain ⟨hwords, hsuite⟩ := wordsOf_inj hlen hwritten hasked heq
    simp only [List.cons.injEq, and_true, true_and] at hwords
    refine ⟨hwords.1, hwords.2, String.toList_injective hsuite, ?_⟩
    obtain ⟨l, hl, hparse⟩ := List.mem_filterMap.mp h
    obtain ⟨q, hq, rfl⟩ := List.mem_map.mp hl
    rw [parseInputsLine_line (hlines q hq).1 hparse]
    exact hq
  · cases h

/-- A genuine text's passes by inputs were recorded. -/
theorem Genuine.inputsLines (h : Genuine sha runs passes text)
    (hclean : ∀ i, Clean (runs i).attempt) (hrepo : safe repo) (henv : safe env)
    {p : String × String} (hp : p ∈ inputsLines repo env suite (some text)) :
    safe p.1 ∧ Clean p.2 ∧ Recorded sha runs passes repo env suite p := by
  cases h with
  | tree hmem hkey =>
    rw [inputsLines_body (hclean _) hkey] at hp
    cases hp
  | inputs hr he hs hlines =>
    obtain ⟨rfl, rfl, rfl, hline⟩ := inputsLines_inputs hr he hs
      (fun q hq ↦ ⟨(hlines q hq).1, (hlines q hq).2.1⟩) hrepo henv hp
    exact hlines p hline

/-- A genuine text's pass on a tree was recorded. -/
theorem Genuine.treeAttempt (h : Genuine sha runs passes text)
    (hclean : ∀ i, Clean (runs i).attempt) {a : String}
    (ha : treeAttempt repo tree env suite (some text) = some a) :
    ∃ j, (j, suite) ∈ passes ∧ (runs j).repo = repo ∧ (runs j).tree = tree ∧
      (runs j).envKey sha = env ∧ (runs j).attempt = a := by
  cases h with
  | tree hmem hkey =>
    obtain ⟨rfl, h⟩ := treeAttempt_body (hclean _) hkey ha
    exact ⟨_, hmem, h⟩
  | inputs hr he hs hlines =>
    rw [treeAttempt_inputs] at ha
    cases ha

end Genuine

/-! ## Every text is genuine -/

section Sound

variable {sha : String → String} {runs : ℕ → Run} {s : State}

/-- Every text in the store, on its way there or found there is genuine. -/
structure State.Sound (sha : String → String) (runs : ℕ → Run) (s : State) : Prop where
  backend : ∀ k text, s.backend k = some text → Genuine sha runs s.passes text
  records : ∀ i k text, s.records i k = some text → Genuine sha runs s.passes text
  byInputs : ∀ i k text, s.byInputs i k = some text → Genuine sha runs s.passes text
  pending : ∀ e ∈ s.pending, Genuine sha runs s.passes e.2

/-- A lookup finds what is in the store. -/
theorem genuine_update {found : ℕ → String → Option (List Char)} {passes : List (ℕ × String)}
    {read : Option (List Char)} (hread : ∀ text, read = some text → Genuine sha runs passes text)
    (h : ∀ i k text, found i k = some text → Genuine sha runs passes text) (i : ℕ) (name : String) :
    ∀ j k text, Function.update found i (Function.update (found i) name read) j k = some text →
      Genuine sha runs passes text := by
  intro j k text htext
  by_cases hj : j = i
  · subst hj
    rw [Function.update_self] at htext
    by_cases hk : k = name
    · subst hk
      rw [Function.update_self] at htext
      exact hread text htext
    · rw [Function.update_of_ne hk] at htext
      exact h _ _ _ htext
  · rw [Function.update_of_ne hj] at htext
    exact h _ _ _ htext

theorem State.Sound.linesOf (h : s.Sound sha runs) (hclean : ∀ i, Clean (runs i).attempt) {i : ℕ}
    {suite : String} (hrepo : safe (runs i).repo) (henv : safe ((runs i).envKey sha))
    {p : String × String} (hp : p ∈ s.linesOf sha runs i suite) :
    safe p.1 ∧ Clean p.2 ∧
      Recorded sha runs s.passes (runs i).repo ((runs i).envKey sha) suite p := by
  rw [State.linesOf] at hp
  cases hb : s.byInputs i suite with
  | none =>
    rw [hb] at hp
    cases hp
  | some text =>
    rw [hb] at hp
    exact (h.byInputs i suite text hb).inputsLines hclean hrepo henv hp

theorem safe_digest {r : Run} {suite d : String} (h : r.digest suite = some d) : safe d := by
  obtain ⟨l₁, l₂, hl, -⟩ := List.lookup_eq_some_iff.mp h
  have hmem : (suite, d) ∈ r.inputsOf := by
    rw [hl]
    simp
  rw [Run.inputsOf, List.mem_filter, Bool.and_eq_true] at hmem
  exact hmem.2.2

/-- **One step keeps every text genuine.** -/
theorem State.Sound.step (h : s.Sound sha runs) (hclean : ∀ i, Clean (runs i).attempt) (e : Event) :
    (s.step sha runs e).Sound sha runs := by
  cases e with
  | lookUpTree i name =>
    rw [State.step]
    split
    · exact { h with records := genuine_update (h.backend _) h.records i name }
    · exact h
  | lookUpInputs i name =>
    rw [State.step]
    split
    · exact { h with byInputs := genuine_update (h.backend _) h.byInputs i name }
    · exact h
  | put n =>
    rw [State.step]
    split
    · exact h
    · rename_i key text hget
      refine { h with backend := fun k t ht ↦ ?_, pending := fun e he ↦ ?_ }
      · dsimp only at ht
        by_cases hk : k = key
        · subst hk
          rw [Function.update_self, Option.some.injEq] at ht
          subst ht
          exact h.pending _ (List.mem_of_getElem? hget)
        · rw [Function.update_of_ne hk] at ht
          exact h.backend k t ht
      · exact h.pending e (List.mem_of_mem_eraseIdx he)
  | record i suite =>
    rw [State.step]
    split
    · exact h
    · rename_i key hkey
      have hsome : ((runs i).key sha suite).isSome := by rw [hkey]; rfl
      obtain ⟨hr, -, he, hs⟩ := key_safe hsome
      have hmem : (i, suite) ∈ s.passes ++ [(i, suite)] := by simp
      refine ⟨fun k t ht ↦ (h.backend k t ht).append, fun j k t ht ↦ (h.records j k t ht).append,
        fun j k t ht ↦ (h.byInputs j k t ht).append, fun e hin ↦ ?_⟩
      obtain hin | hin := List.mem_append.mp hin
      · exact (h.pending e hin).append
      · obtain rfl | hin := List.mem_cons.mp hin
        · exact .tree hmem hsome
        · -- the new line is this pass, and the others were found genuine
          obtain ⟨d, hd, rfl⟩ := Option.map_eq_some_iff.mp (Option.mem_toList.mp hin)
          refine .inputs hr he hs fun p hp ↦ ?_
          obtain rfl | hp := List.mem_cons.mp hp
          · exact ⟨safe_digest hd, hclean i, i, hmem, rfl, rfl, hd, rfl⟩
          · obtain ⟨hsafe, ha, hrec⟩ := h.linesOf hclean hr he
              (List.mem_of_mem_filter (List.mem_of_mem_take hp))
            exact ⟨hsafe, ha, hrec.append⟩

theorem sound_after (hclean : ∀ i, Clean (runs i).attempt) (events : List Event) :
    (after sha runs events).Sound sha runs := by
  induction events using List.reverseRecOn with
  | nil => exact ⟨nofun, nofun, nofun, nofun⟩
  | append_singleton events e ih =>
    rw [after, List.foldl_append, List.foldl_cons, List.foldl_nil]
    exact ih.step hclean e

/-- **An answer is a pass that was recorded**, in this repository and in an environment with this
run's line, and on this tree or by these inputs. -/
theorem State.Sound.passed (h : s.Sound sha runs) (hclean : ∀ i, Clean (runs i).attempt) {i : ℕ}
    {suite a : String} (hp : s.passed sha runs i suite = some a) :
    ∃ j, (j, suite) ∈ s.passes ∧ (runs j).attempt = a ∧ (runs j).repo = (runs i).repo ∧
      (runs j).envKey sha = (runs i).envKey sha ∧ ((runs j).tree = (runs i).tree ∨
        ∃ d, (runs j).digest suite = some d ∧ (runs i).digest suite = some d) := by
  rw [State.passed] at hp
  split at hp
  · rename_i hkey
    obtain ⟨hr, -, he, -⟩ := key_safe hkey
    obtain hp | ⟨-, hp⟩ := Option.or_eq_some_iff.mp hp
    · cases hrec : s.records i suite with
      | none =>
        rw [hrec] at hp
        cases hp
      | some text =>
        rw [hrec] at hp
        obtain ⟨j, hmem, hrepo, htree, henv, ha⟩ := (h.records i suite text hrec).treeAttempt hclean hp
        exact ⟨j, hmem, ha, hrepo, henv, .inl htree⟩
    · obtain ⟨d, hd, hfind⟩ := Option.bind_eq_some_iff.mp hp
      obtain ⟨p, hline, rfl⟩ := Option.map_eq_some_iff.mp hfind
      have hpd : p.1 = d := by simpa using List.find?_some hline
      obtain ⟨-, -, j, hmem, hrepo, henv, hdj, ha⟩ :=
        h.linesOf hclean hr he (List.mem_of_find?_eq_some hline)
      exact ⟨j, hmem, ha, hrepo, henv, .inr ⟨d, hdj.trans (congrArg some hpd), hd⟩⟩
  · cases hp

end Sound

/-! ## What an answer says -/

/-- Some run recorded a pass of the suite under this attempt that counts for run `i`: in the same
repository and the same environment, and on the same tree or by the same inputs. -/
def Counts (runs : ℕ → Run) (passes : List (ℕ × String)) (i : ℕ) (suite a : String) : Prop :=
  ∃ j, (j, suite) ∈ passes ∧ (runs j).attempt = a ∧ (runs j).repo = (runs i).repo ∧
    (runs j).inputs.SameEnv (runs i).inputs ∧ ((runs j).tree = (runs i).tree ∨
      ∃ d, (runs j).digest suite = some d ∧ (runs i).digest suite = some d)

/-- **Where a resumed pass counts.**  Over any history of runs, whatever the order of their reads
and writes: if no two runs of one repository with one resume line differ in the rest of what they
are, then every answer is a pass that counts; and no record in the store pairs a digest with an
attempt that did not record it. -/
theorem passes_resume {sha : String → String} (hsha : Function.Injective sha) {runs : ℕ → Run}
    (hclean : ∀ i, Clean (runs i).attempt)
    (hline : ∀ i j, (runs j).repo = (runs i).repo →
      (runs j).inputs.resumeLine = (runs i).inputs.resumeLine →
      (runs j).inputs.SameEnv (runs i).inputs) (events : List Event) :
    (∀ i suite a, (after sha runs events).passed sha runs i suite = some a →
      Counts runs (after sha runs events).passes i suite a) ∧
    ∀ k text, (after sha runs events).backend k = some text → ∀ repo env suite, safe repo →
      safe env → ∀ p ∈ inputsLines repo env suite (some text),
        Recorded sha runs (after sha runs events).passes repo env suite p := by
  have h : (after sha runs events).Sound sha runs := sound_after hclean events
  constructor
  · intro i suite a hp
    obtain ⟨j, hmem, ha, hrepo, henv, hor⟩ := h.passed hclean hp
    exact ⟨j, hmem, ha, hrepo, hline i j hrepo (hsha henv), hor⟩
  · intro k text hk repo env suite hrepo hsafe p hp
    exact ((h.backend k text hk).inputsLines hclean hrepo hsafe hp).2.2

/-! ## Two runs the line does not tell apart -/

/-- A name a text can be told by: its characters, and for those no name may have, two. -/
def nameChars : List Char → List Char
  | [] => []
  | '_' :: l => '_' :: '_' :: nameChars l
  | ' ' :: l => '_' :: 's' :: nameChars l
  | '/' :: l => '_' :: 'f' :: nameChars l
  | '\n' :: l => '_' :: 'n' :: nameChars l
  | '\r' :: l => '_' :: 'r' :: nameChars l
  | c :: l => c :: nameChars l

/-- A name for every text, in place of a digest. -/
def nameOf (s : String) : String := String.ofList ('h' :: nameChars s.toList)

/-- What a name tells. -/
def readName : List Char → List Char
  | '_' :: '_' :: l => '_' :: readName l
  | '_' :: 's' :: l => ' ' :: readName l
  | '_' :: 'f' :: l => '/' :: readName l
  | '_' :: 'n' :: l => '\n' :: readName l
  | '_' :: 'r' :: l => '\r' :: readName l
  | c :: l => c :: readName l
  | [] => []

theorem nameChars_injective : Function.Injective nameChars := by
  have hread : Function.LeftInverse readName nameChars := by
    intro l
    fun_induction nameChars l <;> simp_all [readName]
  exact hread.injective

theorem nameOf_injective : Function.Injective nameOf := by
  intro s t h
  have hcons := String.ofList_injective h
  exact String.toList_injective (nameChars_injective (List.cons.inj hcons).2)

/-- The crates a run of the unit tests selected over a base. -/
def unitRun (base krate attempt : String) (prior : Bool) : Run where
  inputs :=
    { repoName := "r", tree := "t", imageTag := "img", suites := ["unit-tests"], harnessHash := "h",
      mode := .serial, producer := .diff, profile := "debug", unit := some ⟨base, [krate]⟩ }
  attempt := attempt
  priorAttempt := prior
  digests := []

/-- A run over one base, and a later one over another, whose crate the first did not test. -/
def unitRuns : ℕ → Run
  | 0 => unitRun "b0" "a" "10/1" false
  | _ => unitRun "b1" "b" "10/2" true

/-- The first passes, and its record is in the store before the second looks it up. -/
def unitHistory : List Event := [.record 0 "unit-tests", .put 0, .lookUpTree 1 "unit-tests"]

/-- The second run is answered by the pass of the first, and no pass recorded counts for it. -/
theorem unit_pass_resumes :
    Function.Injective nameOf ∧
      (after nameOf unitRuns unitHistory).passed nameOf unitRuns 1 "unit-tests" = some "10/1" ∧
      ¬ Counts unitRuns (after nameOf unitRuns unitHistory).passes 1 "unit-tests" "10/1" := by
  refine ⟨nameOf_injective, by decide, ?_⟩
  rintro ⟨j, hmem, -, -, henv, -⟩
  have hpasses : (after nameOf unitRuns unitHistory).passes = [(0, "unit-tests")] := by
    decide
  rw [hpasses, List.mem_singleton, Prod.mk.injEq] at hmem
  rw [hmem.1] at henv
  exact absurd henv (by decide)

/-- The first run again, and a later attempt of it. -/
def sameRuns : ℕ → Run
  | 0 => unitRun "b0" "a" "10/1" false
  | _ => unitRun "b0" "a" "10/2" true

/-- A later attempt of the same run is answered by a pass that counts. -/
theorem same_pass_resumes :
    Counts sameRuns (after nameOf sameRuns unitHistory).passes 1 "unit-tests" "10/1" := by
  have hinputs : ∀ i, (sameRuns i).inputs = (unitRun "b0" "a" "10/1" false).inputs := by
    rintro (_ | i) <;> rfl
  have hclean : ∀ i, Clean (sameRuns i).attempt := by
    rintro (_ | i)
    · exact ⟨by decide, by decide⟩
    · change Clean "10/2"
      exact ⟨by decide, by decide⟩
  have hline : ∀ i j, (sameRuns j).repo = (sameRuns i).repo →
      (sameRuns j).inputs.resumeLine = (sameRuns i).inputs.resumeLine →
      (sameRuns j).inputs.SameEnv (sameRuns i).inputs := by
    intro i j _ _
    rw [hinputs, hinputs]
    decide
  exact (passes_resume nameOf_injective hclean hline unitHistory).1 1 "unit-tests" "10/1"
    (by decide)

end Spira.Testenv
