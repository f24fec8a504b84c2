import OsProject.ShellRun

/-! A pipeline of simple commands: the descriptors of each command when it calls `exec`. -/

namespace OsProject.Shell

def pipeline : List Word → List (List Word) → Cmd
  | argv, [] => .exec argv
  | argv, next :: rest => .pipe (.exec argv) (pipeline next rest)

def fds5 (a b c d e : Option End) : Fds := [a, b, c, d, e] ++ List.replicate (NOFILE - 5) none

/-- The input of the command at place `j`: pipe `j` is between the commands `j` and `j + 1`. -/
def inEnd : Nat → End
  | 0 => .orig 0
  | j + 1 => .read j

/-- The output of the command at place `j` of `m`. -/
def outEnd (m j : Nat) : End := if j + 1 = m then .orig 1 else .write j

/-- The descriptors of a command: input, output, the original 2, and no other. -/
def wiring (m j : Nat) : Fds :=
  fds5 (some (inEnd j)) (some (outEnd m j)) (some (.orig 2)) none none

def runnerFds (j : Nat) : Fds :=
  fds5 (some (inEnd j)) (some (.orig 1)) (some (.orig 2)) none none

def pipeFds (j : Nat) : Fds :=
  fds5 (some (inEnd j)) (some (.orig 1)) (some (.orig 2)) (some (.read j)) (some (.write j))

theorem sysPipe_runnerFds (j : Nat) : sysPipe (runnerFds j) j = some (3, 4, pipeFds j) := rfl

theorem left_ops (j : Nat) : [Op.close 1, .dup 4, .close 3, .close 4].foldl Op.apply (pipeFds j) =
    fds5 (some (inEnd j)) (some (.write j)) (some (.orig 2)) none none := rfl

theorem right_ops (j : Nat) : [Op.close 0, .dup 3, .close 3, .close 4].foldl Op.apply (pipeFds j) =
    runnerFds (j + 1) := rfl

theorem parent_ops (j : Nat) : [Op.close 3, .close 4].foldl Op.apply (pipeFds j) = runnerFds j := rfl

theorem wiring_last {m j : Nat} (h : j + 1 = m) : wiring m j = runnerFds j := by
  rw [wiring, outEnd, if_pos h, runnerFds]

theorem wiring_of_lt {m j : Nat} (h : j + 1 < m) : wiring m j =
    fds5 (some (inEnd j)) (some (.write j)) (some (.orig 2)) none none := by
  rw [wiring, outEnd, if_neg h.ne]

def Process.settled (p : Process) : Fds := p.todo.foldl Op.apply p.fds

variable (stages : List (List Word))

def Fits (p : Process) : Prop :=
  match p.next with
  | .run (.exec argv) => stages[p.pos]? = some argv ∧ p.settled = wiring stages.length p.pos
  | .run (.pipe left right) => ∃ argv next rest, left = .exec argv ∧ right = pipeline next rest ∧
      stages.drop p.pos = argv :: next :: rest ∧ p.settled = runnerFds p.pos
  | .forkLeft left right p0 p1 | .forkRight left right p0 p1 _ =>
    ∃ argv next rest, left = .exec argv ∧ right = pipeline next rest ∧
      stages.drop p.pos = argv :: next :: rest ∧ p.todo = [] ∧ p.fds = pipeFds p.pos ∧
      p0 = 3 ∧ p1 = 4
  | .wait _ _ cmd => cmd = none ∧ p.settled = runnerFds p.pos
  | .exec argv => stages[p.pos]? = some argv ∧ p.todo = [] ∧ p.fds = wiring stages.length p.pos
  | .exited _ => p.todo = [] ∧ ∀ f ∈ p.fds, f = none
  | .run _ | .opening _ _ => False

def Process.made (p : Process) : Option Nat :=
  match p.next with
  | .run (.pipe _ _) => some p.pos
  | .forkLeft _ _ _ _ | .forkRight _ _ _ _ _ => some (p.pos + 1)
  | _ => none

structure PipeInv (s : Procs) : Prop where
  fits : ∀ p ∈ s.proc, Fits stages p
  made : ∀ p ∈ s.proc, ∀ n, p.made = some n → s.pipes = n
  single : ∀ (i j : Nat) (p q : Process), s.proc[i]? = some p → s.proc[j]? = some q →
    p.made ≠ none → q.made ≠ none → i = j

variable {stages} {s : Procs} {i : Nat} {p p' child : Process}

theorem PipeInv.put (h : PipeInv stages s) (hp : s.proc[i]? = some p) (hfits : Fits stages p')
    (hmade : p'.made = none ∨ p'.made = p.made) : PipeInv stages (s.put i p') := by
  have hget : ∀ (j : Nat) (q : Process), (s.put i p').proc[j]? = some q → q.made ≠ none →
      ∃ q' : Process, s.proc[j]? = some q' ∧ q'.made ≠ none := by
    intro j q hq hne
    rw [Procs.put, List.getElem?_set] at hq
    split_ifs at hq with hij hlt
    · subst hij
      cases hq
      exact ⟨p, hp, by grind⟩
    · exact ⟨q, hq, hne⟩
  refine ⟨fun q hq => ?_, fun q hq n hn => ?_, fun j k q r hq hr hqm hrm => ?_⟩
  · rcases List.mem_or_eq_of_mem_set hq with hq | rfl
    · exact h.fits q hq
    · exact hfits
  · rcases List.mem_or_eq_of_mem_set hq with hq | rfl
    · exact h.made q hq n hn
    · exact h.made p (List.mem_of_getElem? hp) n (by grind)
  · obtain ⟨q', hq', hqm'⟩ := hget j q hq hqm
    obtain ⟨r', hr', hrm'⟩ := hget k r hr hrm
    exact h.single j k q' r' hq' hr' hqm' hrm'

theorem PipeInv.add (h : PipeInv stages s) (hfits : Fits stages child)
    (hmade : ∀ n, child.made = some n → s.pipes = n ∧ ∀ p ∈ s.proc, p.made = none) :
    PipeInv stages { s with proc := s.proc ++ [child] } := by
  have hold : ∀ (j : Nat) (q : Process), (s.proc ++ [child])[j]? = some q → q.made ≠ none →
      s.proc[j]? = some q ∧ child.made = none ∨ j = s.proc.length ∧ q = child := by
    intro j q hq hne
    rw [List.getElem?_append] at hq
    split_ifs at hq with hlt
    · refine .inl ⟨hq, ?_⟩
      by_contra hchild
      obtain ⟨n, hn⟩ := Option.ne_none_iff_exists'.mp hchild
      exact hne ((hmade n hn).2 q (List.mem_of_getElem? hq))
    · obtain ⟨hlt', rfl⟩ := List.getElem?_eq_some_iff.mp hq
      simp only [List.length_singleton] at hlt'
      exact .inr ⟨by omega, by simp⟩
  refine ⟨fun q hq => ?_, fun q hq n hn => ?_, fun j k q r hq hr hqm hrm => ?_⟩
  · rcases List.mem_append.mp hq with hq | hq
    · exact h.fits q hq
    · exact List.mem_singleton.mp hq ▸ hfits
  · rcases List.mem_append.mp hq with hq | hq
    · exact h.made q hq n hn
    · exact (hmade n (List.mem_singleton.mp hq ▸ hn)).1
  · rcases hold j q hq hqm with ⟨hq', hc⟩ | ⟨rfl, rfl⟩ <;>
      rcases hold k r hr hrm with ⟨hr', hc'⟩ | ⟨rfl, rfl⟩
    · exact h.single j k q r hq' hr' hqm hrm
    · exact absurd hc hrm
    · exact absurd hc' hqm
    · rfl

theorem exit_fits (ran : Bool) : Fits stages (p.exit ran) := by
  refine ⟨rfl, fun f hf => ?_⟩
  simp only [Process.exit, List.mem_map] at hf
  obtain ⟨_, -, rfl⟩ := hf
  rfl

theorem fits_pipeline {p : Process} {argv : List Word} {rest : List (List Word)}
    (hnext : p.next = .run (pipeline argv rest)) (hdrop : stages.drop p.pos = argv :: rest)
    (hfds : p.settled = runnerFds p.pos) : Fits stages p := by
  have hlen := congrArg List.length hdrop
  rw [List.length_drop] at hlen
  cases rest with
  | nil =>
    simp only [pipeline] at hnext
    simp only [Fits, hnext]
    refine ⟨?_, ?_⟩
    · rw [← List.head?_drop, hdrop, List.head?_cons]
    · rw [hfds, wiring_last (by simp only [List.length_singleton] at hlen; omega)]
  | cons next rest =>
    simp only [pipeline] at hnext
    simp only [Fits, hnext]
    exact ⟨argv, next, rest, rfl, rfl, hdrop, hfds⟩

theorem made_pipeline {p : Process} {argv : List Word} {rest : List (List Word)}
    (hnext : p.next = .run (pipeline argv rest)) {n : Nat} (hn : p.made = some n) : n = p.pos := by
  cases rest <;> simp only [pipeline] at hnext <;> simp only [Process.made, hnext] at hn
  · cases hn
  · exact (Option.some.inj hn).symm

theorem PipeInv.op (h : PipeInv stages s) (hp : s.proc[i]? = some p) {op : Op} {ops : List Op}
    (htodo : p.todo = op :: ops) :
    PipeInv stages (s.put i { p with fds := op.apply p.fds, todo := ops }) := by
  have hfits := h.fits p (List.mem_of_getElem? hp)
  have hsettled : ({ p with fds := op.apply p.fds, todo := ops } : Process).settled = p.settled := by
    rw [Process.settled, Process.settled, htodo, List.foldl_cons]
  refine h.put hp ?_ (.inr rfl)
  cases hn : p.next with
  | run cmd =>
    cases cmd with
    | exec argv =>
      simp only [Fits, hn] at hfits
      exact ⟨hfits.1, (hn ▸ hsettled).trans hfits.2⟩
    | pipe left right =>
      simp only [Fits, hn] at hfits
      obtain ⟨argv, next, rest, hleft, hright, hdrop, hfds⟩ := hfits
      exact ⟨argv, next, rest, hleft, hright, hdrop, (hn ▸ hsettled).trans hfds⟩
    | redir cmd r => simp [Fits, hn] at hfits
    | list left right => simp [Fits, hn] at hfits
    | back cmd => simp [Fits, hn] at hfits
  | opening cmd r => simp [Fits, hn] at hfits
  | forkLeft left right p0 p1 => simp [Fits, hn, htodo] at hfits
  | forkRight left right p0 p1 child => simp [Fits, hn, htodo] at hfits
  | wait n children cmd =>
    simp only [Fits, hn] at hfits
    exact ⟨hfits.1, (hn ▸ hsettled).trans hfits.2⟩
  | exec argv => simp [Fits, hn, htodo] at hfits
  | exited ran => simp [Fits, hn, htodo] at hfits

theorem Process.settled_of_nil (htodo : p.todo = []) : p.settled = p.fds := by
  rw [Process.settled, htodo, List.foldl_nil]

theorem PipeInv.pipe (h : PipeInv stages s) (hp : s.proc[i]? = some p) (hfits : Fits stages p')
    (hmade : p.made = some p.pos) (hmade' : p'.made = some (p.pos + 1)) :
    PipeInv stages { s.put i p' with pipes := s.pipes + 1 } := by
  have hpipes := h.made p (List.mem_of_getElem? hp) _ hmade
  have honly : ∀ (j : Nat) (q : Process), (s.put i p').proc[j]? = some q → q.made ≠ none →
      j = i ∧ q = p' := by
    intro j q hq hne
    rw [Procs.put, List.getElem?_set] at hq
    split_ifs at hq with hij hlt
    · cases hq
      exact ⟨hij.symm, rfl⟩
    · exact absurd (h.single i j p q hp hq (by simp [hmade]) hne) hij
  refine ⟨fun q hq => ?_, fun q hq n hn => ?_, fun j k q r hq hr hqm hrm => ?_⟩
  · rcases List.mem_or_eq_of_mem_set hq with hq | rfl
    · exact h.fits q hq
    · exact hfits
  · obtain ⟨j, hj⟩ := List.mem_iff_getElem?.mp hq
    obtain ⟨-, rfl⟩ := honly j q hj (by simp [hn])
    rw [hmade'] at hn
    cases hn
    show s.pipes + 1 = p.pos + 1
    rw [hpipes]
  · rw [(honly j q hq hqm).1, (honly k r hr hrm).1]

theorem PipeInv.run (h : PipeInv stages s) (hp : s.proc[i]? = some p) (htodo : p.todo = [])
    {cmd : Cmd} (hnext : p.next = .run cmd) : PipeInv stages (s.run i p true cmd) := by
  have hfits := h.fits p (List.mem_of_getElem? hp)
  have hfds := Process.settled_of_nil htodo
  cases cmd with
  | exec argv =>
    simp only [Fits, hnext] at hfits
    rw [Procs.run]
    split_ifs
    · exact h.put hp (exit_fits false) (.inl rfl)
    · exact h.put hp ⟨hfits.1, htodo, hfds ▸ hfits.2⟩ (.inl rfl)
  | pipe left right =>
    simp only [Fits, hnext] at hfits
    obtain ⟨argv, next, rest, hleft, hright, hdrop, hsettled⟩ := hfits
    have hmade : p.made = some p.pos := by simp [Process.made, hnext]
    have hpipes := h.made p (List.mem_of_getElem? hp) _ hmade
    have hpipe : sysPipe p.fds s.pipes = some (3, 4, pipeFds p.pos) := by
      rw [← hfds, hsettled, hpipes, sysPipe_runnerFds]
    simp only [Procs.run, if_true, hpipe]
    exact h.pipe hp ⟨argv, next, rest, hleft, hright, hdrop, htodo, rfl, rfl, rfl⟩ hmade rfl
  | redir cmd r | list left right | back cmd => simp [Fits, hnext] at hfits

theorem PipeInv.go (h : PipeInv stages s) (hp : s.proc[i]? = some p) (htodo : p.todo = []) :
    PipeInv stages (s.go i p true) := by
  have hfits := h.fits p (List.mem_of_getElem? hp)
  have hfds := Process.settled_of_nil htodo
  cases hnext : p.next with
  | run cmd =>
    simp only [Procs.go, hnext]
    exact h.run hp htodo hnext
  | opening cmd r => simp [Fits, hnext] at hfits
  | forkLeft left right p0 p1 =>
    simp only [Fits, hnext] at hfits
    obtain ⟨argv, next, rest, rfl, hright, hdrop, -, hpipe, rfl, rfl⟩ := hfits
    have hmade : p.made = some (p.pos + 1) := by simp [Process.made, hnext]
    simp only [Procs.go, hnext, if_true]
    -- The process goes on to its second fork, and the child sets up the output of its command.
    have hforked : Fits stages
        { p with next := .forkRight (.exec argv) right 3 4 s.proc.length } :=
      ⟨argv, next, rest, rfl, hright, hdrop, htodo, hpipe, rfl, rfl⟩
    have hput := h.put hp hforked (.inr hmade.symm)
    refine hput.add ⟨?_, ?_⟩ nofun
    · show stages[p.pos]? = some argv
      rw [← List.head?_drop, hdrop, List.head?_cons]
    · have hlen := congrArg List.length hdrop
      simp only [List.length_drop, List.length_cons] at hlen
      rw [Process.settled, hpipe, left_ops, wiring_of_lt (by show p.pos + 1 < _; omega)]
  | forkRight left right p0 p1 child =>
    simp only [Fits, hnext] at hfits
    obtain ⟨argv, next, rest, rfl, rfl, hdrop, -, hpipe, rfl, rfl⟩ := hfits
    have hmade : p.made = some (p.pos + 1) := by simp [Process.made, hnext]
    have hpipes := h.made p (List.mem_of_getElem? hp) _ hmade
    simp only [Procs.go, hnext, if_true]
    have hforked : Fits stages { p with
        todo := [.close 3, .close 4], next := .wait 2 [child, s.proc.length] none } :=
      ⟨rfl, by rw [Process.settled, hpipe, parent_ops]⟩
    have hput := h.put hp hforked (.inl rfl)
    refine hput.add (fits_pipeline rfl ?_ ?_) fun n hn => ?_
    · show stages.drop (p.pos + 1) = _
      rw [← List.tail_drop, hdrop, List.tail_cons]
    · show [Op.close 0, .dup 3, .close 3, .close 4].foldl Op.apply p.fds = runnerFds (p.pos + 1)
      rw [hpipe, right_ops]
    · refine ⟨hpipes.trans (made_pipeline rfl hn).symm, fun q hq => ?_⟩
      obtain ⟨j, hj⟩ := List.mem_iff_getElem?.mp hq
      rw [Procs.put, List.getElem?_set] at hj
      split_ifs at hj with hij hlt
      · cases hj
        rfl
      · by_contra hne
        exact hij (h.single i j p q hp hj (by simp [hmade]) hne)
  | wait n children cmd =>
    simp only [Fits, hnext] at hfits
    obtain ⟨rfl, hsettled⟩ := hfits
    cases n with
    | zero =>
      simp only [Procs.go, hnext]
      exact h.put hp (exit_fits false) (.inl rfl)
    | succ n =>
      simp only [Procs.go, hnext]
      split
      · exact h.put hp ⟨rfl, hsettled⟩ (.inl rfl)
      · split_ifs
        · exact h.put hp ⟨rfl, hsettled⟩ (.inl rfl)
        · exact h
  | exec argv =>
    simp only [Procs.go, hnext]
    exact h.put hp (exit_fits true) (.inl rfl)
  | exited ran =>
    simp only [Procs.go, hnext]
    exact h

theorem pipeInv_step (h : PipeInv stages s) {e : ShEvent} (he : e.ok = true) :
    PipeInv stages (shStep s e) := by
  rw [shStep]
  cases hp : s.proc[e.pid]? with
  | none => exact h
  | some p =>
    cases htodo : p.todo with
    | nil =>
      simp only [htodo, he]
      exact h.go hp htodo
    | cons op ops =>
      simp only [htodo]
      exact h.op hp htodo

def Process.HoldsWrite (p : Process) : Prop := ∃ pipe, some (.write pipe) ∈ p.fds

/-- The processes of the shell are past the calls of `close`, and wait. -/
def Procs.Waiting (s : Procs) : Prop :=
  ∀ p ∈ s.proc, (∃ ran, p.next = .exited ran) ∨
    p.todo = [] ∧ ∃ n children cmd, p.next = .wait n children cmd

/-- A command that calls `exec` is the one at its place in the pipeline and has the descriptors of
that place. -/
structure Wired (stages : List (List Word)) (s : Procs) : Prop where
  exec : ∀ p ∈ s.proc, ∀ argv, p.next = .exec argv →
    stages[p.pos]? = some argv ∧ p.fds = wiring stages.length p.pos
  released : s.Waiting → ∀ p ∈ s.proc, ¬ p.HoldsWrite

theorem PipeInv.wired (h : PipeInv stages s) : Wired stages s := by
  refine ⟨fun p hp argv hnext => ?_, fun hw p hp => ?_⟩
  · have hfits := h.fits p hp
    simp only [Fits, hnext] at hfits
    exact ⟨hfits.1, hfits.2.2⟩
  · have hfits := h.fits p hp
    rintro ⟨pipe, hmem⟩
    rcases hw p hp with ⟨ran, hnext⟩ | ⟨htodo, n, children, cmd, hnext⟩
    · simp only [Fits, hnext] at hfits
      cases hfits.2 _ hmem
    · simp only [Fits, hnext, Process.settled_of_nil htodo] at hfits
      rw [hfits.2, runnerFds, fds5] at hmem
      cases hpos : p.pos <;> simp [hpos, inEnd] at hmem

theorem pipeInv_start (argv : List Word) (rest : List (List Word)) :
    PipeInv (argv :: rest) (shStart (pipeline argv rest)) := by
  refine ⟨fun p hp => ?_, fun p hp n hn => ?_, fun i j p q hi hj _ _ => ?_⟩
  · rw [shStart, List.mem_singleton] at hp
    subst hp
    exact fits_pipeline rfl rfl rfl
  · rw [shStart, List.mem_singleton] at hp
    subst hp
    exact (made_pipeline rfl hn).symm
  · have hi' := (List.getElem?_eq_some_iff.mp hi).1
    have hj' := (List.getElem?_eq_some_iff.mp hj).1
    simp only [shStart, List.length_singleton] at hi' hj'
    omega

/-- In every interleaving of the processes of a pipeline. -/
theorem pipeline_wired (argv : List Word) (rest : List (List Word)) (es : List ShEvent)
    (hok : ∀ e ∈ es, e.ok = true) :
    Always shStep (Wired (argv :: rest)) (shStart (pipeline argv rest)) es :=
  always_of_meets (I := PipeInv (argv :: rest)) (fun _ _ h he => pipeInv_step h he)
    (fun _ => PipeInv.wired) (pipeInv_start argv rest) (meets_of_mem (fun e he _ => hok e he) _)

/-- Both processes that the shell forks for `a | b`, one after the other up to their `exec`. -/
def twoStages : List ShEvent :=
  (List.replicate 3 0 ++ List.replicate 5 1 ++ List.replicate 5 2).map fun i => { pid := i }

theorem pipeline_wired_two : (∀ e ∈ twoStages, e.ok = true) ∧
    (∃ p ∈ (twoStages.foldl shStep (shStart (pipeline [⟨0, 1⟩] [[⟨4, 5⟩]]))).proc,
      p.next = .exec [⟨4, 5⟩]) ∧
    Wired [[⟨0, 1⟩], [⟨4, 5⟩]]
      (twoStages.foldl shStep (shStart (pipeline [⟨0, 1⟩] [[⟨4, 5⟩]]))) := by
  have hok : ∀ e ∈ twoStages, e.ok = true := by decide
  exact ⟨hok, by decide, (pipeline_wired [⟨0, 1⟩] [[⟨4, 5⟩]] twoStages hok).last⟩

def Procs.AllExited (s : Procs) (stages : List (List Word)) : Prop :=
  ∀ j < stages.length, ∃ p ∈ s.proc, p.pos = j ∧ p.next = .exited true

theorem write_end_after_exits :
    ∃ es : List ShEvent, (∀ e ∈ es, e.ok = true) ∧
      (es.foldl shStep (shStart (pipeline [⟨0, 1⟩] [[⟨4, 5⟩]]))).AllExited
        [[⟨0, 1⟩], [⟨4, 5⟩]] ∧
      ∃ p ∈ (es.foldl shStep (shStart (pipeline [⟨0, 1⟩] [[⟨4, 5⟩]]))).proc, p.HoldsWrite := by
  refine ⟨twoStages ++ [{ pid := 1 }, { pid := 2 }], by decide, ?_, ?_⟩
  · unfold Procs.AllExited
    decide
  · refine ⟨{ pos := 0, fds := pipeFds 0, todo := [.close 3, .close 4], next := .wait 2 [1, 2] none },
      by decide, 0, by decide⟩

end OsProject.Shell
