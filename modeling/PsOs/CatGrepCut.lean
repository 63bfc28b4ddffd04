import PsOs.CStrings
import PsOs.PipelineProgress

/-!
`exercise04/task2/cat_grep_cut.c` and `cat_cut.c`. The programs that they execute are parameters.
-/

namespace PsOs.Pipelines

open CStrings TransitionSystems

variable {β S : Type}

section Whole

inductive WholeState (β : Type) where
  | reading (input : List β)
  | writing (rest : List β)

def whole (f : List β → List β) (start : WholeState β) : Filter β (WholeState β) where
  start
  request
    | .reading _ => .read
    | .writing [] => .exit
    | .writing (b :: rest) => .write (b :: rest)
  read
    | .reading input, [] => .writing (f input)
    | .reading input, b :: bytes => .reading (input ++ b :: bytes)
    | .writing rest, _ => .writing rest
  written
    | .reading input, _ => .reading input
    | .writing rest, k => .writing (rest.drop k)

def WholeOk (f : List β → List β) (xs : List β) (eof : Bool) (ys : List β) : WholeState β → Prop
  | .reading input => input = xs ∧ eof = false ∧ ys = []
  | .writing rest => eof = true ∧ ys ++ rest = f xs

variable {f : List β → List β} {start s : WholeState β} {seen eof : Bool} {xs ys : List β}

theorem wholeOk_of_runs (hstart : WholeOk f [] seen [] start) (h : (whole f start).Runs seen s xs eof ys) :
    WholeOk f xs eof ys s := by
  induction h with
  | start => exact hstart
  | @chunk s xs ys _ hread bytes hbytes ih =>
    cases s with
    | reading input =>
      obtain ⟨rfl, -, rfl⟩ := ih
      obtain ⟨b, bytes, rfl⟩ := List.exists_cons_of_ne_nil hbytes
      exact ⟨rfl, rfl, rfl⟩
    | writing rest => cases ih.1
  | @eof s xs ys _ hread ih =>
    cases s with
    | reading input =>
      obtain ⟨rfl, -, rfl⟩ := ih
      exact ⟨rfl, rfl⟩
    | writing rest => cases ih.1
  | @written s xs ys bytes e _ hwrite k hpos hk ih =>
    cases s with
    | reading input => cases hwrite
    | writing rest =>
      obtain ⟨heof, hrest⟩ := ih
      have hbytes : bytes = rest := by
        cases rest <;> cases hwrite
        rfl
      refine ⟨heof, ?_⟩
      rw [hbytes, List.append_assoc, List.take_append_drop, hrest]

theorem whole_computes (hstart : WholeOk f [] seen [] start) : (whole f start).Computes f seen where
  reading h hread := by
    have hok := wholeOk_of_runs hstart h
    rename_i s _ _ _
    cases s with
    | reading input => exact hok.2.1
    | writing rest => cases rest <;> cases hread
  writing h hwrite := by
    rename_i s _ _ _ _
    cases s with
    | reading input => cases hwrite
    | writing rest =>
      cases rest with
      | nil => cases hwrite
      | cons b rest =>
        cases hwrite
        simp
  early h more := by
    have hok := wholeOk_of_runs hstart h
    rename_i s _ _
    cases s with
    | reading input =>
      rw [hok.2.2]
      exact List.nil_prefix
    | writing rest => cases hok.1
  late h := by
    have hok := wholeOk_of_runs hstart h
    rename_i s _ _
    cases s with
    | reading input => cases hok.2.1
    | writing rest => exact ⟨rest, hok.2⟩
  exit h hexit := by
    have hok := wholeOk_of_runs hstart h
    rename_i s _ _ _
    cases s with
    | reading input => cases hexit
    | writing rest =>
      cases rest with
      | nil => exact ⟨hok.1, by simpa using hok.2⟩
      | cons => cases hexit

end Whole

section Ended

variable {n : ℕ} {cap : ℕ} {F : ℕ → Filter β S} {plan : Plan n} {t : State n β S}

def Phase.isExited : Phase S → Bool
  | .exited => true
  | _ => false

def Ended (t : State n β S) : Bool := decide (∀ p, (t.procs p).phase.isExited = true)

theorem step_of_ended (h : ∀ p, (t.procs p).phase.isExited = true) (a : Action n) :
    step cap F plan t a = none := by
  have hexited := h a.proc
  cases hphase : (t.procs a.proc).phase with
  | exited => simp only [step, hphase]
  | _ =>
    rw [hphase] at hexited
    cases hexited

end Ended

def STDIN_FILENO : ℕ := 0

def STDOUT_FILENO : ℕ := 1

def inherited : Table := [some .terminal, some .terminal, some .terminal]

namespace CatGrepCut

def fptr_cat_grep : PipeFds := (inherited.pipe 0).1

def fptr_grep_cut : PipeFds := ((inherited.pipe 0).2.pipe 1).1

def close_pipes (pipe1 pipe2 : PipeFds) : List Call :=
  [.close pipe1.read, .close pipe1.write, .close pipe2.read, .close pipe2.write]

def plan : Plan 3 where
  table := ((inherited.pipe 0).2.pipe 1).2
  root := 2
  births := [1, 0]
  -- `cat`, `grep` and `cut`: the child of the child, the child and the parent
  script
    | 0 => .dup2 fptr_cat_grep.write STDOUT_FILENO :: close_pipes fptr_cat_grep fptr_grep_cut
    | 1 => .dup2 fptr_cat_grep.read STDIN_FILENO :: .dup2 fptr_grep_cut.write STDOUT_FILENO ::
        close_pipes fptr_cat_grep fptr_grep_cut
    | 2 => .dup2 fptr_grep_cut.read STDIN_FILENO :: close_pipes fptr_cat_grep fptr_grep_cut

theorem plumbed : plan.Plumbed := by
  refine ⟨?_, ?_, ?_, ?_⟩ <;> decide

def filters (cat grep cut : Filter β S) : ℕ → Filter β S
  | 0 => cat
  | 1 => grep
  | _ => cut

def outputs (file : List β) (grep cut : List β → List β) : ℕ → List β → List β
  | 0 => fun _ => file
  | 1 => grep
  | _ => cut

variable {cat grep cut : Filter β S} {file : List β} {grepOf cutOf : List β → List β} {cap : ℕ}
  {t : State 3 β S}

/-- `cat` is given the file as an argument, so that it does not read its standard input. -/
theorem delivers_of_run (hcat : cat.Computes (fun _ => file) true) (hgrep : grep.Computes grepOf false)
    (hcut : cut.Computes cutOf false) (hcap : 0 < cap) {as : List (Action 3)}
    (hrun : run (step cap (filters cat grep cut) plan) plan.init as = some t) :
    t.output <+: cutOf (grepOf file) ∧ as.length ≤ plan.work (outputs file grepOf cutOf) ∧
      ((∀ a, step cap (filters cat grep cut) plan t a = none) →
        (∀ p, (t.procs p).phase = .exited) ∧ t.output = cutOf (grepOf file)) := by
  have hF : Expected 3 (filters cat grep cut) (outputs file grepOf cutOf) := by
    intro p
    match p with
    | 0 => exact hcat
    | 1 => exact hgrep
    | 2 => exact hcut
  exact delivers plumbed hF hcap hrun

def grepSemicolon (text : List UInt8) : List UInt8 :=
  ((text.splitOn 10).filter fun line => line.head? = some (byte ';')).flatMap (· ++ [10])

def cutFrom22 (text : List UInt8) : List UInt8 :=
  (text.splitOn 10).dropLast.flatMap fun line => line.drop 21 ++ [10]

def twoLines : List UInt8 := text "+91609028741995185064Goodbye\n;19331123444333286571Congratulations,\n"

def wholeFilters : ℕ → Filter UInt8 (WholeState UInt8) :=
  filters (whole (fun _ => twoLines) (.writing twoLines)) (whole grepSemicolon (.reading []))
    (whole cutFrom22 (.reading []))

def inTurn : List (Action 3) :=
  [⟨2, 0⟩, ⟨1, 0⟩] ++ List.replicate 8 ⟨0, 67⟩ ++ List.replicate 6 ⟨2, 0⟩ ++
    List.replicate 9 ⟨1, 67⟩ ++ List.replicate 2 ⟨1, 38⟩ ++ List.replicate 2 ⟨2, 38⟩ ++
    List.replicate 2 ⟨2, 17⟩

theorem delivers_twoLines : ∃ t : State 3 UInt8 (WholeState UInt8),
    run (step 4096 wholeFilters plan) plan.init inTurn = some t ∧
      (∀ p, (t.procs p).phase = .exited) ∧ t.output = text "Congratulations,\n" := by
  obtain ⟨t, ht, hended⟩ := (Option.any_eq_true Ended
    (run (step 4096 wholeFilters plan) plan.init inTurn)).mp (by decide +kernel)
  have hcat : (whole (fun _ => twoLines) (.writing twoLines)).Computes (fun _ => twoLines) true :=
    whole_computes ⟨rfl, rfl⟩
  have hgrep : (whole grepSemicolon (.reading [])).Computes grepSemicolon false :=
    whole_computes ⟨rfl, rfl, rfl⟩
  have hcut : (whole cutFrom22 (.reading [])).Computes cutFrom22 false :=
    whole_computes ⟨rfl, rfl, rfl⟩
  obtain ⟨-, -, hdone⟩ := delivers_of_run hcat hgrep hcut (by decide) ht
  obtain ⟨hexited, houtput⟩ := hdone (step_of_ended (of_decide_eq_true hended))
  have heq : cutFrom22 (grepSemicolon twoLines) = text "Congratulations,\n" := by decide +kernel
  exact ⟨t, ht, hexited, houtput.trans heq⟩

end CatGrepCut

namespace CatCut

def f_ptr : PipeFds := (inherited.pipe 0).1

def parent : Fin 2 := Fin.castSucc (Fin.last 0)

def child : Fin 2 := Fin.last 1

def plan : Plan 2 where
  table := (inherited.pipe 0).2
  root := parent
  births := [child]
  -- `cat` and `cut`
  script
    | 0 => [.dup2 f_ptr.write STDOUT_FILENO, .close f_ptr.write, .close f_ptr.read]
    | 1 => [.dup2 f_ptr.read STDIN_FILENO, .close f_ptr.write, .close f_ptr.read]

theorem plumbed : plan.Plumbed := by
  refine ⟨?_, ?_, ?_, ?_⟩ <;> decide

def filters (cat cut : Filter β S) : ℕ → Filter β S
  | 0 => cat
  | _ => cut

def outputs (file : List β) (cut : List β → List β) : ℕ → List β → List β
  | 0 => fun _ => file
  | _ => cut

variable {cat cut : Filter β S} {file : List β} {cutOf : List β → List β} {cap : ℕ}
  {t : State 2 β S}

theorem cut_of_run (hcat : cat.Computes (fun _ => file) true) (hcut : cut.Computes cutOf false)
    (hcap : 0 < cap) {as : List (Action 2)}
    (hrun : run (step cap (filters cat cut) plan) plan.init as = some t) :
    t.output <+: cutOf file ∧ as.length ≤ plan.work (outputs file cutOf) ∧
      ((∀ a, step cap (filters cat cut) plan t a = none) →
        (∀ p, (t.procs p).phase = .exited) ∧ t.output = cutOf file) := by
  have hF : Expected 2 (filters cat cut) (outputs file cutOf) := by
    intro p
    match p with
    | 0 => exact hcat
    | 1 => exact hcut
  exact delivers plumbed hF hcap hrun

def inTurn : List (Action 2) :=
  [⟨parent, 0⟩] ++ List.replicate 6 ⟨parent, 67⟩ ++ List.replicate 6 ⟨child, 67⟩ ++
    List.replicate 2 ⟨child, 25⟩

def wholeFilters : ℕ → Filter UInt8 (WholeState UInt8) :=
  filters (whole (fun _ => CatGrepCut.twoLines) (.writing CatGrepCut.twoLines))
    (whole CatGrepCut.cutFrom22 (.reading []))

theorem cut_twoLines : ∃ t : State 2 UInt8 (WholeState UInt8),
    run (step 4096 wholeFilters plan) plan.init inTurn = some t ∧
      (∀ p, (t.procs p).phase = .exited) ∧ t.output = text "Goodbye\nCongratulations,\n" := by
  obtain ⟨t, ht, hended⟩ := (Option.any_eq_true Ended
    (run (step 4096 wholeFilters plan) plan.init inTurn)).mp (by decide +kernel)
  have hcat : (whole (fun _ => CatGrepCut.twoLines) (.writing CatGrepCut.twoLines)).Computes
      (fun _ => CatGrepCut.twoLines) true := whole_computes ⟨rfl, rfl⟩
  have hcut : (whole CatGrepCut.cutFrom22 (.reading [])).Computes CatGrepCut.cutFrom22 false :=
    whole_computes ⟨rfl, rfl, rfl⟩
  obtain ⟨-, -, hdone⟩ := cut_of_run hcat hcut (by decide) ht
  obtain ⟨hexited, houtput⟩ := hdone (step_of_ended (of_decide_eq_true hended))
  have heq : CatGrepCut.cutFrom22 CatGrepCut.twoLines = text "Goodbye\nCongratulations,\n" := by
    decide +kernel
  exact ⟨t, ht, hexited, houtput.trans heq⟩

end CatCut

end PsOs.Pipelines
