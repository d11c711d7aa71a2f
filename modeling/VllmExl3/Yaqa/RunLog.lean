/-
# VllmExl3.Yaqa.RunLog — a factor pass and its log (`quantization/quant.py`)

`run_logged` appends to a log: a line with the command, the child's output, a line with its exit code.
The process can be killed at any point, and then the log ends anywhere in this text. `range_logged_ok`
reads the log's lines that begin with `=== ` and asks whether the last command was for a range of layers
and the line after it says `exit 0`. One attempt more changes the answer to yes only by exiting 0 on
just this range (`rangeLoggedOk_runLogged`).
-/
import VllmExl3.Lib.PyLines
import VllmExl3.Lib.PyPath
import Mathlib.Data.List.Chain
import Mathlib.Data.List.Infix

namespace VllmExl3.Yaqa

open PyLines

/-! ## Commands -/

/-- What a factor is collected from and into: the model, the rows, the directory. -/
structure Factor where
  name : String
  path : String
  rows : String
  out : String
  n_layers : Nat

/-- What `yaqa` is called with. -/
structure Args where
  exllamav3dir : String
  device : String
  reserve_vram : Option String
  layers_per_run : Option Int

variable {f : Factor} {args : Args} {ranged ranged' : Bool} {a b b' : Nat}

/-- `os.path.join(args.exllamav3dir, "util", "yaqa_hessians.py")` -/
def tool (args : Args) : String :=
  PyPath.join (PyPath.join args.exllamav3dir "util") "yaqa_hessians.py"

/-- `f"{a}:{b}"` -/
def layers (a b : Nat) : String := toString a ++ ":" ++ toString b

/-- `[ "-rv", args.reserve_vram ] if args.reserve_vram else []` -/
def reserved (args : Args) : List String :=
  match args.reserve_vram with
  | some rv => if rv.isEmpty then [] else ["-rv", rv]
  | none => []

/-- The command before its range. -/
def common (f : Factor) (args : Args) : List String :=
  ["python3", tool args, "-m", f.path, "-c", f.rows, "-o", f.out, "-d", args.device, "--tf32"]

/-- The command for layers `a` to `b`. -/
def command (f : Factor) (args : Args) (ranged : Bool) (a b : Nat) : List String :=
  common f args ++ (if ranged then ["-l", layers a b] else []) ++ reserved args

/-! ## Attempts -/

/-- What a line of `run_logged` begins with: `=== `. -/
def MARK : List Char := ['=', '=', '=', ' ']

/-- The characters of a date and a time. -/
def isStampChar (c : Char) : Bool := c.isDigit || c = '-' || c = ':' || c = ' '

/-- `stamp()` -/
def Stamp := { text : List Char // text.all isStampChar = true }

/-- The characters of a number of seconds or minutes. -/
def isTookChar (c : Char) : Bool :=
  c.isDigit || c = '.' || c = ' ' || c = 'm' || c = 'i' || c = 'n' || c = 's'

/-- How long a child took. -/
def Took := { text : List Char // text.all isTookChar = true }

/-- How an attempt ends: the process is killed before the child ends, or the child ends with a code;
then all is written, or the process is killed before. `kept` is how much of the text is in the log. -/
inductive Ending where
  | killed (kept : Nat)
  | ended (rc : Int) (stamp : Stamp) (took : Took) (kept : Option Nat)

/-- One run of the tool: when it starts, what it writes (no line of which begins with `=== `), whether it
makes the output directory, and how it ends. -/
structure Attempt where
  stamp : Stamp
  output : List Char
  quiet : marked MARK output = []
  makes_out : Bool
  ending : Ending

/-- The code the child exited with, if it did. -/
def Attempt.exitCode (attempt : Attempt) : Option Int :=
  match attempt.ending with
  | .killed _ => none
  | .ended rc _ _ _ => some rc

/-- `f"=== {stamp()} {' '.join(cmd)}"` -/
def startLine (stamp : Stamp) (cmd : List String) : List Char :=
  MARK ++ stamp.1 ++ ' ' :: (" ".intercalate cmd).toList

/-- `f"=== {stamp()} exit {rc} after {took}"` -/
def exitLine (stamp : Stamp) (rc : Int) (took : Took) : List Char :=
  MARK ++ stamp.1 ++ [' ', 'e', 'x', 'i', 't', ' '] ++ (toString rc).toList ++
    [' ', 'a', 'f', 't', 'e', 'r', ' '] ++ took.1

/-- What is written before the child ends. -/
def Attempt.started (attempt : Attempt) (cmd : List String) : List Char :=
  '\n' :: (startLine attempt.stamp cmd ++ '\n' :: attempt.output)

/-- `run_logged`: the log, and the child's code if the process lives to return it. -/
def runLogged (log : List Char) (cmd : List String) (attempt : Attempt) : List Char × Option Int :=
  match attempt.ending with
  | .killed kept => (log ++ (attempt.started cmd).take kept, none)
  | .ended rc stamp took none =>
    (log ++ (attempt.started cmd ++ '\n' :: (exitLine stamp rc took ++ ['\n'])), some rc)
  | .ended rc stamp took (some kept) =>
    (log ++ (attempt.started cmd ++ '\n' :: (exitLine stamp rc took ++ ['\n'])).take kept, none)

/-! ## Reading a log -/

/-- `\s` of a pattern over text. -/
def isSpace (c : Char) : Bool :=
  let n := c.toNat
  (9 ≤ n ∧ n ≤ 13) ∨ (28 ≤ n ∧ n ≤ 32) ∨ n = 0x85 ∨ n = 0xa0 ∨ n = 0x1680 ∨ (0x2000 ≤ n ∧ n ≤ 0x200a) ∨
    n = 0x2028 ∨ n = 0x2029 ∨ n = 0x202f ∨ n = 0x205f ∨ n = 0x3000

/-- `re.search(rf" -l {a}:{b}(\s|$)", cmd) is not None` -/
def hasRange (cmd : List Char) (a b : Nat) : Bool :=
  let pattern := " -l ".toList ++ (layers a b).toList
  cmd.tails.any fun t => pattern.isPrefixOf t && (t.drop pattern.length).head?.all isSpace

/-- Does a line name the tool? -/
def isStart (l : List Char) : Bool := occurs "yaqa_hessians.py".toList l

/-- The last line that names the tool, and the lines after it. -/
def lastStart : List (List Char) → Option (List Char × List (List Char))
  | [] => none
  | l :: rest => (lastStart rest).or (if isStart l then some (l, rest) else none)

/-- Was the command for this range, and does the next line say that it exited 0? -/
def attemptOk (cmd : List Char) (after : List (List Char)) (a b : Nat) (ranged : Bool) : Bool :=
  if (ranged && !hasRange cmd a b) || (!ranged && occurs " -l ".toList cmd) then false
  else match after with
    | [] => false
    | l :: _ => occurs " exit 0 after ".toList l

/-- `range_logged_ok` -/
def rangeLoggedOk (log : Option (List Char)) (a b : Nat) (ranged : Bool) : Bool :=
  match log with
  | none => false
  | some text => match lastStart (marked MARK text) with
    | none => false
    | some (cmd, after) => attemptOk cmd after a b ranged

/-! ## What a line says -/

theorem not_isSpace_of_isDigit {c : Char} (h : c.isDigit = true) : isSpace c = false := by
  have hval : 48 ≤ c.toNat ∧ c.toNat ≤ 57 := by
    simp only [Char.isDigit, Bool.and_eq_true, decide_eq_true_eq] at h
    exact ⟨h.1, h.2⟩
  unfold isSpace
  simp only [decide_eq_false_iff_not]
  omega

/-- Two runs of digits, each followed by something else or by nothing. -/
theorem digits_eq {xs ys s t : List Char} (hxs : ∀ c ∈ xs, c.isDigit = true)
    (hys : ∀ c ∈ ys, c.isDigit = true) (hs : ∀ c, s.head? = some c → c.isDigit = false)
    (ht : ∀ c, t.head? = some c → c.isDigit = false) (h : xs ++ s = ys ++ t) : xs = ys := by
  have htake : ∀ zs u : List Char, (∀ c ∈ zs, c.isDigit = true) →
      (∀ c, u.head? = some c → c.isDigit = false) → (zs ++ u).takeWhile Char.isDigit = zs := by
    intro zs u hzs hu
    rw [List.takeWhile_append_of_pos hzs]
    cases u with
    | nil => simp
    | cons c u => rw [List.takeWhile_cons_of_neg (by simp [hu c rfl]), List.append_nil]
  rw [← htake xs s hxs hs, h, htake ys t hys ht]

theorem hasRange_iff {cmd : List Char} : hasRange cmd a b = true ↔ ∃ x y,
    cmd = x ++ " -l ".toList ++ (layers a b).toList ++ y ∧ ∀ c, y.head? = some c → isSpace c = true := by
  rw [hasRange, List.any_eq_true]
  constructor
  · rintro ⟨t, ht, hmatch⟩
    obtain ⟨x, rfl⟩ := (List.mem_tails _ _).mp ht
    obtain ⟨hpre, hspace⟩ := Bool.and_eq_true_iff.mp hmatch
    obtain ⟨y, rfl⟩ := List.isPrefixOf_iff_prefix.mp hpre
    rw [List.drop_left] at hspace
    refine ⟨x, y, by simp, fun c hc => ?_⟩
    rwa [hc] at hspace
  · rintro ⟨x, y, rfl, hspace⟩
    refine ⟨" -l ".toList ++ (layers a b).toList ++ y, (List.mem_tails _ _).mpr ⟨x, by simp⟩, ?_⟩
    rw [Bool.and_eq_true_iff, List.isPrefixOf_iff_prefix, List.drop_left]
    refine ⟨List.prefix_append _ _, ?_⟩
    cases hy : y.head? with
    | none => rfl
    | some c => exact hspace c hy

/-- What the texts of a command must not hold: a line break, ` -l ` inside or `-l ` in front, and for the
tool's path the words by which a log line says that a child exited 0. -/
structure Legible (f : Factor) (args : Args) : Prop where
  unbroken : ∀ w ∈ common f args ++ reserved args, '\n' ∉ w.toList ∧ '\r' ∉ w.toList
  plain : ∀ w ∈ common f args ++ reserved args, ¬ " -l ".toList <:+: ' ' :: w.toList
  unfinished : ¬ " exit 0 after ".toList <:+: ' ' :: (tool args).toList

theorem startLine_eq (stamp : Stamp) {cmd : List String} (h : cmd ≠ []) :
    startLine stamp cmd = (MARK ++ stamp.1) ++ spaced cmd := by
  rw [startLine, ← space_join h]

/-- No letter of `-l` or `exit` is in a line's first part. -/
theorem notMem_stamped (stamp : Stamp) {c : Char} (h : c ∈ ['l', 'x', 'q', '\n', '\r']) :
    c ∉ MARK ++ stamp.1 := by
  have hother : ['l', 'x', 'q', '\n', '\r'].all (fun c => !isStampChar c && !MARK.contains c) = true := by
    decide
  have hc := List.all_eq_true.mp hother c h
  rw [Bool.and_eq_true, Bool.not_eq_true', Bool.not_eq_true'] at hc
  intro hmem
  rcases List.mem_append.mp hmem with hmark | hstamp
  · rw [List.contains_iff_mem.mpr hmark] at hc
    cases hc.2
  · rw [List.all_eq_true.mp stamp.2 c hstamp] at hc
    cases hc.1

/-! ## The range in a command -/

/-- No word that ends with `-l` before a word that begins with a digit. -/
def Apart (v v' : String) : Prop :=
  " -l".toList <:+ ' ' :: v.toList → ∀ c, v'.toList.head? = some c → c.isDigit = false

theorem apart_option {v v' : String} (h : v'.toList.head? = some '-') : Apart v v' := by
  intro _ c hc
  rw [h] at hc
  obtain rfl := Option.some.inj hc
  rfl

theorem apart_word {v v' : String} (h : ¬ " -l".toList <:+ ' ' :: v.toList) : Apart v v' :=
  fun hend => absurd hend h

theorem chain_common {ws : List String} (h : List.IsChain Apart ("--tf32" :: ws)) :
    List.IsChain Apart (common f args ++ ws) := by
  simp only [common, List.cons_append, List.nil_append, List.isChain_cons_cons]
  refine ⟨apart_word (by decide), apart_option (by decide), apart_word (by decide),
    apart_option (by decide), apart_word (by decide), apart_option (by decide), apart_word (by decide),
    apart_option (by decide), apart_word (by decide), apart_option (by decide), h⟩

theorem chain_reserved {v : String} (h : ¬ " -l".toList <:+ ' ' :: v.toList) :
    List.IsChain Apart (v :: reserved args) := by
  unfold reserved
  split
  · split_ifs
    · exact .singleton v
    · exact List.isChain_cons_cons.mpr ⟨apart_word h, List.isChain_cons_cons.mpr
        ⟨apart_word (by decide), .singleton _⟩⟩
  · exact .singleton v

/-- Two lists without two words next to each other that must not be: in both together they can only be
where the lists meet. -/
theorem meet_of_adjacent {α : Type*} {R : α → α → Prop} {xs ys zs ws : List α} {v v' : α}
    (hxs : List.IsChain R xs) (hys : List.IsChain R ys) (hR : ¬ R v v')
    (h : xs ++ ys = zs ++ v :: v' :: ws) : ys = v' :: ws := by
  have hsplit : xs ++ ys = (zs ++ [v]) ++ v' :: ws := by simpa using h
  rcases List.append_eq_append_iff.mp hsplit with ⟨k, hk, hrest⟩ | ⟨k, hk, hrest⟩
  · rcases List.eq_nil_or_concat k with rfl | ⟨k, v₀, rfl⟩
    · simpa using hrest
    · rw [List.concat_eq_append, ← List.append_assoc] at hk
      obtain ⟨-, hv⟩ := List.append_inj' hk rfl
      obtain rfl := List.head_eq_of_cons_eq hv
      rw [hrest, List.concat_eq_append, List.append_assoc, List.singleton_append,
        List.isChain_append_cons_cons] at hys
      exact absurd hys.2.1 hR
  · cases k with
    | nil => exact hrest.symm
    | cons v₀ k =>
      obtain ⟨rfl, -⟩ := List.cons.inj hrest
      rw [hk, List.append_assoc, List.singleton_append, List.isChain_append_cons_cons] at hxs
      exact absurd hxs.2.1 hR

theorem mem_layers {c : Char} (h : c ∈ (layers a b).toList) : c.isDigit = true ∨ c = ':' := by
  simp only [layers, String.toList_append, List.mem_append] at h
  rcases h with (h | h) | h
  · exact .inl (PyStr.isDigit_of_mem_toString h)
  · exact .inr (by simpa using h)
  · exact .inl (PyStr.isDigit_of_mem_toString h)

theorem command_ne_nil : command f args ranged a b ≠ [] := by
  rw [command, common]
  exact List.cons_ne_nil _ _

/-- A command has the words around its range, and the range. -/
theorem forall_command {P : String → Prop} (hwords : ∀ w ∈ common f args ++ reserved args, P w)
    (hoption : P "-l") (hrange : P (layers a b)) : ∀ w ∈ command f args ranged a b, P w := by
  intro w hw
  rw [command, List.mem_append, List.mem_append] at hw
  rcases hw with (hw | hw) | hw
  · exact hwords w (List.mem_append_left _ hw)
  · split_ifs at hw
    · rcases List.mem_cons.mp hw with rfl | hw
      · exact hoption
      · obtain rfl := List.mem_singleton.mp hw
        exact hrange
    · cases hw
  · exact hwords w (List.mem_append_right _ hw)

/-- No word of a command has ` -l ` in it. -/
theorem plain_command (h : Legible f args) :
    ∀ w ∈ command f args ranged a b, ¬ " -l ".toList <:+: ' ' :: w.toList := by
  apply forall_command h.plain (by decide)
  intro hin
  have hdash : '-' ∈ ' ' :: (layers a b).toList := hin.subset (by decide)
  rcases List.mem_cons.mp hdash with hdash | hdash
  · cases hdash
  · rcases mem_layers hdash with hdash | hdash <;> cases hdash

theorem layers_head (a b : Nat) : ∃ d ds, (layers a b).toList = d :: ds ∧ d.isDigit = true := by
  cases hlist : (toString a).toList with
  | nil =>
    have hne : (toString a).toList ≠ [] := by
      rw [Nat.toString_eq_repr, Nat.toList_repr]
      exact List.ne_nil_of_length_pos Nat.length_toDigits_pos
    exact absurd hlist hne
  | cons d ds =>
    refine ⟨d, ds ++ (":".toList ++ (toString b).toList), ?_, ?_⟩
    · rw [layers, String.toList_append, String.toList_append, hlist, List.append_assoc]
      rfl
    · exact PyStr.isDigit_of_mem_toString (hlist ▸ List.mem_cons_self)

/-- Where a command's line shows a range, a word that ends with `-l` is before one that begins with it. -/
theorem adjacent_of_hasRange (h : Legible f args) {stamp : Stamp}
    (hhas : hasRange (startLine stamp (command f args ranged a b)) a b' = true) :
    ∃ ws₁ v v' ws₂ y, command f args ranged a b = ws₁ ++ v :: v' :: ws₂ ∧ ¬ Apart v v' ∧
      (layers a b').toList ++ y = v'.toList ++ spaced ws₂ ∧
      ∀ c, y.head? = some c → isSpace c = true := by
  obtain ⟨x, y, hline, hy⟩ := hasRange_iff.mp hhas
  have hdash : ' ' ∉ "-l".toList := by decide
  have hocc : x ++ ' ' :: ("-l".toList ++ ' ' :: ((layers a b').toList ++ y)) =
      (MARK ++ stamp.1) ++ spaced (command f args ranged a b) := by
    rw [← startLine_eq stamp command_ne_nil, hline]
    simp
  -- the time before the command has no letter
  have hstamped : 'l' ∉ MARK ++ stamp.1 := notMem_stamped stamp (by decide)
  obtain ⟨x', hocc'⟩ : ∃ x', spaced (command f args ranged a b) =
      x' ++ ' ' :: ("-l".toList ++ ' ' :: ((layers a b').toList ++ y)) := by
    rcases cut_word hdash (fun hin => hstamped (hin.subset (by decide)))
        (spaced_starts _) hocc with ⟨x', -, hx'⟩ | ⟨hend, -⟩
    · exact ⟨x', hx'⟩
    · rw [hend] at hstamped
      simp at hstamped
  obtain ⟨ws₁, v, v', ws₂, hcmd, hend, hnext⟩ := cut_words hdash (plain_command h) hocc'.symm
  refine ⟨ws₁, v, v', ws₂, y, hcmd, fun hapart => ?_, hnext, hy⟩
  obtain ⟨d, ds, hds, hdigit⟩ := layers_head a b'
  rw [hds, List.cons_append] at hnext
  cases hv' : v'.toList with
  | nil =>
    rw [hv', List.nil_append] at hnext
    rcases spaced_starts ws₂ with hnil | hspace
    · rw [hnil] at hnext
      cases hnext
    · rw [← hnext] at hspace
      obtain rfl : d = ' ' := Option.some.inj hspace
      cases hdigit
  | cons c cs =>
    rw [hv'] at hnext
    have hhead : v'.toList.head? = some d := by
      rw [hv', ← (List.cons.inj hnext).1]
      rfl
    have hfalse := hapart hend d hhead
    rw [hdigit] at hfalse
    cases hfalse

/-- A command's line shows a range only where it is the command's own. -/
theorem hasRange_startLine (h : Legible f args) {stamp : Stamp}
    (hhas : hasRange (startLine stamp (command f args ranged a b)) a b' = true) :
    ranged = true ∧ b' = b := by
  obtain ⟨ws₁, v, v', ws₂, y, hcmd, hnot, hnext, hy⟩ := adjacent_of_hasRange h hhas
  cases ranged with
  | false =>
    have hchain : List.IsChain Apart (command f args false a b) := by
      have hcommon : List.IsChain Apart (common f args ++ reserved args) :=
        chain_common (chain_reserved (by decide))
      simpa [command] using hcommon
    rw [hcmd, List.isChain_append_cons_cons] at hchain
    exact absurd hchain.2.1 hnot
  | true =>
    refine ⟨rfl, ?_⟩
    have hbefore : List.IsChain Apart (common f args ++ ["-l"]) :=
      chain_common (List.isChain_cons_cons.mpr ⟨apart_word (by decide), .singleton _⟩)
    have hafter : List.IsChain Apart (layers a b :: reserved args) := by
      apply chain_reserved
      intro hsuffix
      have hl : 'l' ∈ ' ' :: (layers a b).toList := hsuffix.subset (by decide)
      rcases List.mem_cons.mp hl with hl | hl
      · cases hl
      · rcases mem_layers hl with hl | hl <;> cases hl
    have hparts : (common f args ++ ["-l"]) ++ layers a b :: reserved args = ws₁ ++ v :: v' :: ws₂ := by
      rw [← hcmd]
      simp [command]
    obtain ⟨rfl, rfl⟩ := List.cons.inj (meet_of_adjacent hbefore hafter hnot hparts)
    -- both ranges begin with `a`, and neither's last number goes on
    have hdigits : (toString b').toList ++ y = (toString b).toList ++ spaced (reserved args) := by
      simpa [layers] using hnext
    have heq := digits_eq (fun c => PyStr.isDigit_of_mem_toString)
      (fun c => PyStr.isDigit_of_mem_toString) (fun c hc => ?_) (fun c hc => ?_) hdigits
    · exact PyStr.toString_nat_injective (String.toList_injective heq)
    · by_contra hdigit
      have hspace := hy c hc
      rw [not_isSpace_of_isDigit (by simpa using hdigit)] at hspace
      cases hspace
    · rcases spaced_starts (reserved args) with hnil | hspace
      · rw [hnil] at hc
        cases hc
      · rw [hspace] at hc
        obtain rfl := Option.some.inj hc
        rfl

/-! ## The exit code in a line -/

/-- A line that says `exit 0` is that of a child that exited 0. -/
theorem exitLine_zero {stamp : Stamp} {rc : Int} {took : Took}
    (h : " exit 0 after ".toList <:+: exitLine stamp rc took) : rc = 0 := by
  obtain ⟨code, hcode⟩ : ∃ code, code = (toString rc).toList := ⟨_, rfl⟩
  obtain ⟨tail, htail⟩ : ∃ tail, tail = ' ' :: (code ++ ' ' :: ("after ".toList ++ took.1)) := ⟨_, rfl⟩
  have hdash : ' ' ∉ "exit".toList := by decide
  have hline : exitLine stamp rc took =
      (MARK ++ stamp.1) ++ (' ' :: "exit".toList ++ tail) := by
    rw [exitLine, htail, hcode]
    simp
  have hcode_char : ∀ c ∈ code, c = '-' ∨ c.isDigit = true := by
    intro c hc
    rw [hcode] at hc
    exact PyStr.mem_toString_int hc
  -- there is one `x` in the line
  have htail_x : 'x' ∉ tail := by
    rw [htail]
    simp only [List.mem_cons, List.mem_append, not_or]
    refine ⟨by decide, ?_, by decide, by decide, ?_⟩
    · intro hx
      rcases hcode_char 'x' hx with hx | hx <;> cases hx
    · intro hx
      exact absurd (List.all_eq_true.mp took.2 'x' hx) (by decide)
  rw [hline] at h
  have hin : ' ' :: ("exit".toList ++ ' ' :: "0 after ".toList) <:+: ' ' :: "exit".toList ++ tail :=
    infix_of_append (c := 'x') hdash (by decide) (notMem_stamped stamp (by decide)) (.inr rfl) h
  obtain ⟨x, y, hxy⟩ := hin
  have hocc : x ++ ' ' :: ("exit".toList ++ ' ' :: ("0 after ".toList ++ y)) =
      ' ' :: "exit".toList ++ tail := by
    rw [← hxy]
    simp
  rcases cut_word hdash (by decide) (.inr (htail ▸ rfl)) hocc with ⟨x', -, hx'⟩ | ⟨-, hrest⟩
  · rw [hx'] at htail_x
    simp at htail_x
  · rw [htail] at hrest
    have hzero : code ++ ' ' :: ("after ".toList ++ took.1) = "0".toList ++ ' ' :: ("after ".toList ++ y) :=
      (List.cons.inj hrest).2
    have hspace : ' ' ∉ code := by
      intro hspace
      rcases hcode_char ' ' hspace with h | h <;> cases h
    obtain ⟨hcode0, -⟩ := eq_of_sep_append hspace (by decide) hzero
    have hstring : toString rc = toString (0 : Int) := by
      apply String.toList_injective
      rw [← hcode, hcode0]
      decide
    exact PyStr.toString_int_injective hstring

theorem notMem_exitLine {stamp : Stamp} {rc : Int} {took : Took} {c : Char}
    (h : c ∈ ['q', '\n', '\r']) : c ∉ exitLine stamp rc took := by
  have hother : ['q', '\n', '\r'].all (fun c => ['l', 'x', 'q', '\n', '\r'].contains c &&
      !isTookChar c && !c.isDigit && c ≠ '-' && !" exit ".toList.contains c &&
      !" after ".toList.contains c) = true := by decide
  have hc := List.all_eq_true.mp hother c h
  simp only [Bool.and_eq_true, Bool.not_eq_true', List.contains_iff_mem, decide_eq_true_eq] at hc
  obtain ⟨⟨⟨⟨⟨hletter, htook⟩, hdigit⟩, hminus⟩, hexit⟩, hafter⟩ := hc
  simp only [exitLine, List.mem_append, not_or]
  have hstamped := notMem_stamped stamp hletter
  rw [List.mem_append, not_or] at hstamped
  refine ⟨⟨⟨⟨hstamped, ?_⟩, fun hmem => ?_⟩, ?_⟩, fun hmem => ?_⟩
  · simpa using hexit
  · rcases PyStr.mem_toString_int hmem with hmem | hmem
    · exact hminus hmem
    · rw [hdigit] at hmem
      cases hmem
  · simpa using hafter
  · rw [List.all_eq_true.mp took.2 c hmem] at htook
    cases htook

/-- A line with an exit code does not name the tool, nor does any part of it. -/
theorem not_isStart_exitLine {stamp : Stamp} {rc : Int} {took : Took} {l : List Char}
    (hl : l <+: exitLine stamp rc took) : isStart l = false := by
  rw [isStart, occurs_eq_false]
  intro hin
  have hq : 'q' ∈ exitLine stamp rc took := hl.subset (hin.subset (by decide))
  exact notMem_exitLine (by decide) hq

/-! ## The last attempt -/

theorem lastStart_append {ls tail : List (List Char)} (htail : ∀ l ∈ tail, isStart l = false) :
    lastStart (ls ++ tail) = (lastStart ls).map fun p => (p.1, p.2 ++ tail) := by
  induction ls with
  | nil =>
    induction tail with
    | nil => rfl
    | cons l tail ih =>
      have hrest : lastStart tail = none := by
        simpa [lastStart] using ih fun l' hl' => htail l' (List.mem_cons_of_mem l hl')
      simp [lastStart, hrest, htail l List.mem_cons_self]
  | cons l ls ih =>
    rw [List.cons_append, lastStart, ih, lastStart]
    cases lastStart ls with
    | some p => rfl
    | none =>
      simp only [Option.map_none, Option.none_or]
      split_ifs <;> rfl

theorem lastStart_start {ls tail : List (List Char)} {l : List Char} (hl : isStart l = true)
    (htail : ∀ l ∈ tail, isStart l = false) : lastStart (ls ++ l :: tail) = some (l, tail) := by
  have hnone : lastStart tail = none := by
    have hempty : lastStart ([] ++ tail) = (lastStart []).map _ := lastStart_append htail
    simpa [lastStart] using hempty
  induction ls with
  | nil => simp [lastStart, hnone, hl]
  | cons l' ls ih => rw [List.cons_append, lastStart, ih, Option.some_or]

theorem attemptOk_cons {cmd l : List Char} {after : List (List Char)}
    (h : attemptOk cmd (l :: after) a b ranged = true) :
    " exit 0 after ".toList <:+: l ∧ (ranged = true → hasRange cmd a b = true) ∧
      (ranged = false → ¬ " -l ".toList <:+: cmd) := by
  unfold attemptOk at h
  split_ifs at h with hcmd
  refine ⟨occurs_iff.mp h, ?_, ?_⟩
  · rintro rfl
    by_contra hhas
    simp [hhas] at hcmd
  · rintro rfl hin
    rw [occurs_iff.mpr hin] at hcmd
    exact hcmd rfl

theorem attemptOk_nil {cmd : List Char} : attemptOk cmd [] a b ranged = false := by
  unfold attemptOk
  split_ifs <;> rfl

/-- A command's line up to the tool's path. -/
def opening (stamp : Stamp) (args : Args) : List Char :=
  (MARK ++ stamp.1) ++ spaced ["python3", tool args]

theorem startLine_opening (f : Factor) (args : Args) (ranged : Bool) (a b : Nat) (stamp : Stamp) : ∃ ws,
    startLine stamp (command f args ranged a b) = opening stamp args ++ spaced ws := by
  obtain ⟨ws, hws⟩ : ∃ ws, command f args ranged a b = ["python3", tool args] ++ ws := ⟨_, rfl⟩
  refine ⟨ws, ?_⟩
  rw [startLine_eq stamp command_ne_nil, hws, spaced_append, opening, ← List.append_assoc]

/-- It names the tool. -/
theorem isStart_opening {stamp : Stamp} {l : List Char} (h : opening stamp args <+: l) :
    isStart l = true := by
  have hname : PyStr.endswith "yaqa_hessians.py" "yaqa_hessians.py" = true :=
    PyStr.endswith_iff.mpr ⟨"", by simp⟩
  obtain ⟨stem, htool⟩ : ∃ stem, tool args = stem ++ "yaqa_hessians.py" :=
    PyStr.endswith_iff.mp (PyPath.endswith_join hname)
  rw [isStart, occurs_iff]
  refine List.IsInfix.trans ?_ h.isInfix
  rw [opening, spaced_cons, spaced_cons, spaced_nil, htool, String.toList_append, List.append_nil,
    ← List.cons_append, ← List.append_assoc, ← List.append_assoc]
  exact List.infix_append_right

/-- What is cut off before the tool's name says nothing of an exit. -/
theorem not_exit_cut (h : Legible f args) {stamp : Stamp} {l : List Char}
    (hl : l <+: startLine stamp (command f args ranged a b)) (hstart : isStart l = false) :
    ¬ " exit 0 after ".toList <:+: l := by
  intro hin
  obtain ⟨ws, hws⟩ := startLine_opening f args ranged a b stamp
  rw [hws] at hl
  have hshort : l <+: opening stamp args := by
    rcases prefix_append hl with hshort | ⟨t, rfl, -⟩
    · exact hshort
    · rw [isStart_opening (List.prefix_append _ t)] at hstart
      cases hstart
  have hopening : " exit 0 after ".toList <:+: opening stamp args := hin.trans hshort.isInfix
  have htool : ' ' :: ("exit".toList ++ ' ' :: "0 after ".toList) <:+: ' ' :: (tool args).toList := by
    have hword : opening stamp args =
        ((MARK ++ stamp.1) ++ " python3".toList) ++ ' ' :: (tool args).toList := by
      rw [opening, spaced_cons, spaced_cons, spaced_nil, List.append_nil, List.append_assoc,
        List.append_assoc, List.append_assoc]
      rfl
    rw [hword] at hopening
    have hx : 'x' ∉ (MARK ++ stamp.1) ++ " python3".toList := by
      rw [List.mem_append, not_or]
      exact ⟨notMem_stamped stamp (by decide), by decide⟩
    exact infix_of_append (by decide) (by decide) hx (.inr rfl) hopening
  exact h.unfinished htool

/-- What an attempt can leave in the log: a part of its text, up to where the process was killed. -/
theorem runLogged_eq (log : List Char) (cmd : List String) (attempt : Attempt) :
    ∃ p tail, (runLogged log cmd attempt).1 = log ++ p ∧ p <+: attempt.started cmd ++ tail ∧
      (tail = [] ∨ ∃ rc stamp took, attempt.exitCode = some rc ∧
        tail = '\n' :: (exitLine stamp rc took ++ ['\n'])) := by
  unfold runLogged Attempt.exitCode
  cases attempt.ending with
  | killed kept => exact ⟨_, [], rfl, by rw [List.append_nil]; exact List.take_prefix _ _, .inl rfl⟩
  | ended rc stamp took kept =>
    cases kept with
    | none => exact ⟨_, _, rfl, List.prefix_rfl, .inr ⟨rc, stamp, took, rfl, rfl⟩⟩
    | some kept => exact ⟨_, _, rfl, List.take_prefix _ _, .inr ⟨rc, stamp, took, rfl, rfl⟩⟩

/-- What is returned is the child's code. -/
theorem exitCode_of_runLogged {log : List Char} {cmd : List String} {attempt : Attempt} {rc : Int}
    (h : (runLogged log cmd attempt).2 = some rc) : attempt.exitCode = some rc := by
  unfold runLogged at h
  unfold Attempt.exitCode
  split at h
  · cases h
  · next hending =>
    rw [hending]
    exact h
  · cases h

theorem unbroken_startLine (h : Legible f args) (stamp : Stamp) {c : Char} (hc : c ∈ ['\n', '\r']) :
    c ∉ startLine stamp (command f args ranged a b) := by
  have hother : ['\n', '\r'].all (fun c => c ≠ ' ' && !"-l".toList.contains c && !c.isDigit && c ≠ ':' &&
      ['l', 'x', 'q', '\n', '\r'].contains c) = true := by decide
  have hchar := List.all_eq_true.mp hother c hc
  simp only [Bool.and_eq_true, Bool.not_eq_true', List.contains_iff_mem, decide_eq_true_eq] at hchar
  obtain ⟨⟨⟨⟨hspace, hoption⟩, hdigit⟩, hcolon⟩, hletter⟩ := hchar
  have hlayers : c ∉ (layers a b).toList := by
    intro hmem
    rcases mem_layers hmem with hmem | hmem
    · rw [hdigit] at hmem
      cases hmem
    · exact hcolon hmem
  have hword : ∀ w ∈ command f args ranged a b, c ∉ w.toList := by
    refine forall_command (fun w hw => ?_) (by simpa using hoption) hlayers
    rcases List.mem_cons.mp hc with rfl | hc
    · exact (h.unbroken w hw).1
    · obtain rfl := List.mem_singleton.mp hc
      exact (h.unbroken w hw).2
  rw [startLine_eq stamp command_ne_nil, List.mem_append, not_or]
  refine ⟨notMem_stamped stamp hletter, fun hmem => ?_⟩
  obtain ⟨w, hw, hmem⟩ := List.mem_flatMap.mp hmem
  rcases List.mem_cons.mp hmem with rfl | hmem
  · exact hspace rfl
  · exact hword w hw hmem

theorem rangeLoggedOk_some (text : List Char) (a b : Nat) (ranged : Bool) :
    rangeLoggedOk (some text) a b ranged =
      (lastStart (marked MARK text)).elim false fun p => attemptOk p.1 p.2 a b ranged := by
  rw [rangeLoggedOk]
  cases lastStart (marked MARK text) <;> rfl

/-- A command line that is cut off, after a log: no answer becomes yes. -/
theorem rangeLoggedOk_cut (h : Legible f args) {log l : List Char} {stamp : Stamp}
    (hl : l <+: startLine stamp (command f args ranged a b))
    (hok : rangeLoggedOk (some (log ++ '\n' :: l)) a b' ranged' = true) :
    rangeLoggedOk (some log) a b' ranged' = true := by
  have hbreaks : ∀ c ∈ ['\n', '\r'], c ∉ l := fun c hc hmem =>
    unbroken_startLine h stamp hc (hl.subset hmem)
  rw [rangeLoggedOk_some, marked_append_newline (by decide)] at hok
  rw [rangeLoggedOk_some]
  have hmarked : marked MARK l = [] ∨ marked MARK l = [l] :=
    marked_line (hbreaks '\n' (by decide)) (hbreaks '\r' (by decide))
  rcases hmarked with hnone | hline
  · rwa [hnone, List.append_nil] at hok
  · rw [hline] at hok
    cases hstart : isStart l with
    | true =>
      -- the last command has nothing after it
      rw [lastStart_start hstart (fun _ hl => absurd hl List.not_mem_nil), Option.elim_some,
        attemptOk_nil] at hok
      cases hok
    | false =>
      rw [lastStart_append (by simpa using hstart)] at hok
      cases hlast : lastStart (marked MARK log) with
      | none =>
        rw [hlast] at hok
        cases hok
      | some p =>
        obtain ⟨cmd, after⟩ := p
        rw [hlast] at hok
        cases after with
        | nil =>
          have hok : attemptOk cmd [l] a b' ranged' = true := hok
          exact absurd (attemptOk_cons hok).1 (not_exit_cut h hl hstart)
        | cons l' after => exact hok

theorem option_startLine (stamp : Stamp) : " -l ".toList <:+: startLine stamp (command f args true a b) := by
  have hcmd : command f args true a b = common f args ++ (["-l", layers a b] ++ reserved args) := by
    rw [command, if_pos rfl, List.append_assoc]
  refine ⟨("=== ".toList ++ stamp.1) ++ spaced (common f args),
    (layers a b).toList ++ spaced (reserved args), ?_⟩
  rw [startLine_eq stamp command_ne_nil, hcmd, spaced_append, spaced_append]
  simp [MARK]

/-- A whole command line and what is in the log after it. -/
theorem rangeLoggedOk_started (h : Legible f args) {log t : List Char} {stamp : Stamp}
    {after : List (List Char)} (ht : marked MARK t = after) (hafter : ∀ l ∈ after, isStart l = false)
    (hok : rangeLoggedOk (some (log ++ '\n' :: (startLine stamp (command f args ranged a b) ++ '\n' :: t)))
      a b' ranged' = true) :
    (∃ l ∈ after, " exit 0 after ".toList <:+: l) ∧ ranged' = ranged ∧ (ranged = true → b' = b) := by
  have hline : marked MARK (startLine stamp (command f args ranged a b)) =
      [startLine stamp (command f args ranged a b)] := by
    apply marked_self (by decide) (unbroken_startLine h stamp (by decide))
      (unbroken_startLine h stamp (by decide))
    rw [startLine, List.append_assoc]
    exact List.prefix_append _ _
  obtain ⟨ws, hws⟩ := startLine_opening f args ranged a b stamp
  have hstart : isStart (startLine stamp (command f args ranged a b)) = true := by
    apply isStart_opening
    rw [hws]
    exact List.prefix_append _ _
  rw [rangeLoggedOk_some, marked_append_newline (by decide), marked_append_newline (by decide), hline, ht,
    List.singleton_append, lastStart_start hstart hafter, Option.elim_some] at hok
  cases after with
  | nil =>
    rw [attemptOk_nil] at hok
    cases hok
  | cons l after =>
    obtain ⟨hexit, hrange, hwhole⟩ := attemptOk_cons hok
    refine ⟨⟨l, List.mem_cons_self, hexit⟩, ?_⟩
    cases ranged' with
    | true =>
      obtain ⟨rfl, hb⟩ := hasRange_startLine h (hrange rfl)
      exact ⟨rfl, fun _ => hb⟩
    | false =>
      have hunranged : ranged = false := by
        by_contra hranged
        rw [Bool.not_eq_false] at hranged
        subst hranged
        exact hwhole rfl (option_startLine stamp)
      subst hunranged
      exact ⟨rfl, fun hfalse => nomatch hfalse⟩

/-- After the command: nothing that counts, or a part of the line with the exit code. -/
theorem marked_rest (attempt : Attempt) {t tail : List Char} (ht : t <+: attempt.output ++ tail)
    (htail : tail = [] ∨ ∃ rc stamp took, attempt.exitCode = some rc ∧
      tail = '\n' :: (exitLine stamp rc took ++ ['\n'])) :
    marked MARK t = [] ∨ ∃ l rc stamp took, attempt.exitCode = some rc ∧ marked MARK t = [l] ∧
      l <+: exitLine stamp rc took := by
  have hquiet : ∀ {t}, t <+: attempt.output → marked MARK t = [] := fun h =>
    marked_eq_nil_of_prefix h attempt.quiet
  rcases prefix_append ht with hshort | ⟨t, rfl, hrest⟩
  · exact .inl (hquiet hshort)
  · rcases htail with rfl | ⟨rc, stamp, took, hcode, rfl⟩
    · obtain rfl := List.prefix_nil.mp hrest
      rw [List.append_nil]
      exact .inl (hquiet List.prefix_rfl)
    · cases t with
      | nil =>
        rw [List.append_nil]
        exact .inl (hquiet List.prefix_rfl)
      | cons c t =>
        obtain ⟨rfl, hexit⟩ := List.cons_prefix_cons.mp hrest
        rw [marked_append_newline (by decide), attempt.quiet, List.nil_append]
        -- the last line break adds no line
        obtain ⟨l, hl, heq⟩ : ∃ l, l <+: exitLine stamp rc took ∧ marked MARK t = marked MARK l := by
          rcases prefix_append hexit with hshort | ⟨t, rfl, hend⟩
          · exact ⟨t, hshort, rfl⟩
          · refine ⟨exitLine stamp rc took, List.prefix_rfl, ?_⟩
            cases t with
            | nil => rw [List.append_nil]
            | cons c t =>
              obtain ⟨rfl, hnil⟩ := List.cons_prefix_cons.mp hend
              obtain rfl := List.prefix_nil.mp hnil
              rw [marked_append_newline (by decide)]
              exact List.append_nil _
        have hbreaks : ∀ c ∈ ['\n', '\r'], c ∉ l := fun c hc hmem =>
          notMem_exitLine (List.mem_cons_of_mem 'q' hc) (hl.subset hmem)
        rw [heq]
        have hmarked : marked MARK l = [] ∨ marked MARK l = [l] :=
          marked_line (hbreaks '\n' (by decide)) (hbreaks '\r' (by decide))
        rcases hmarked with hnone | hline
        · exact .inl hnone
        · exact .inr ⟨l, rc, stamp, took, hcode, hline, hl⟩

/-- One attempt more: the answer to a question was yes before, or the attempt ran this range and exited 0. -/
theorem rangeLoggedOk_runLogged (h : Legible f args) (log : List Char) (attempt : Attempt)
    (hok : rangeLoggedOk (some (runLogged log (command f args ranged a b) attempt).1) a b' ranged' = true) :
    rangeLoggedOk (some log) a b' ranged' = true ∨
      attempt.exitCode = some 0 ∧ ranged' = ranged ∧ (ranged = true → b' = b) := by
  obtain ⟨p, tail, hlog, hp, htail⟩ := runLogged_eq log (command f args ranged a b) attempt
  rw [hlog] at hok
  rw [Attempt.started, List.cons_append] at hp
  cases p with
  | nil =>
    rw [List.append_nil] at hok
    exact .inl hok
  | cons c p =>
    obtain ⟨rfl, hrest⟩ := List.cons_prefix_cons.mp hp
    rw [List.append_assoc, List.cons_append] at hrest
    rcases prefix_append hrest with hcut | ⟨t, rfl, ht⟩
    · exact .inl (rangeLoggedOk_cut h hcut hok)
    · cases t with
      | nil =>
        rw [List.append_nil] at hok
        exact .inl (rangeLoggedOk_cut h List.prefix_rfl hok)
      | cons c t =>
        obtain ⟨rfl, hafter⟩ := List.cons_prefix_cons.mp ht
        right
        rcases marked_rest attempt hafter htail with hnone | ⟨l, rc, stamp, took, hcode, hlast, hl⟩
        · obtain ⟨⟨l, hl, -⟩, -⟩ := rangeLoggedOk_started h hnone (by simp) hok
          cases hl
        · have hstart : ∀ l' ∈ [l], isStart l' = false := by
            intro l' hl'
            obtain rfl := List.mem_singleton.mp hl'
            exact not_isStart_exitLine hl
          obtain ⟨⟨l', hl', hexit⟩, hrange⟩ := rangeLoggedOk_started h hlast hstart hok
          obtain rfl := List.mem_singleton.mp hl'
          obtain rfl := exitLine_zero (hexit.trans hl.isInfix)
          exact ⟨hcode, hrange⟩

end VllmExl3.Yaqa
