import TypeText.Session

/-!
# The default is scoped

A program sets and resets the default, makes renderers, shows trees, raises and catches
exceptions, and opens blocks, in which a configuration is the default.  The default is one
cell that every step may overwrite; a block only writes back what it found.  Nevertheless
programs see it as scoped: what happens in a block is undone when the block is left, in
whichever way it is left.

The steps of a program, in the order in which they are taken, form a **path** over the levels
of nesting: a block that is entered at a level has the name of that level, and only the
innermost open block is left.  What is in force is read off the steps taken so far by looking
back (`inForce`), past what happened in blocks that are closed.  Along a path the session
agrees with that reading, for its default and for the default that each open block will bring
back (`Tracks`).

## Main definitions

* `Program`, `Program.exec` — programs, and the steps that they take.
* `inForce` — the configuration in force after some steps.
* `Path` — the steps that a program can take.
* `IsScoped` — what is promised of the default.

## Main results

* `inForce_sub_cons` — what an open block will bring back stays the same while it is open.
* `Path.tracks` — **along a path the default is the configuration in force.**
* `Program.follows_exec` — the steps of a program form a path that ends at its own level.
* `isScoped_exec` — the default of a program is scoped.
-/

set_option autoImplicit false

namespace TypeText

namespace Session

/-! ### Programs -/

/-- What a program does apart from opening blocks.  Renderers are made for the default, and
trees are shown under the default with options on top. -/
inductive Command where
  /-- Sets the default. -/
  | set (config : List Entry)
  /-- Goes back to the built-in default. -/
  | reset
  /-- Makes a renderer for the default. -/
  | create (id : String)
  /-- Shows a tree with a renderer. -/
  | use (id : String) (node : Option Node)
  /-- Shows a tree with options on top of the default. -/
  | render (node : Option Node) (entries : List Entry)

/-- The step of a session that a command takes. -/
def Command.step : Command → Step
  | .set config => .set config
  | .reset => .reset
  | .create id => .create id none
  | .use id node => .use id node
  | .render node entries => .render node none entries

/-- What can be raised: the error of a step, or an exception of the program's own. -/
inductive Exception where
  /-- A step failed. -/
  | failed (e : Error)
  /-- The program raised it. -/
  | raised (name : String)

/-- Programs.  They may look at the answers to their commands and at what they catch. -/
inductive Program where
  /-- Does nothing. -/
  | skip
  /-- Raises an exception. -/
  | raise (e : Exception)
  /-- Does one thing and goes on with the answer. -/
  | command (c : Command) (next : Reply → Program)
  /-- One after the other. -/
  | seq (p q : Program)
  /-- Goes on with a handler when something is raised, which may raise it again. -/
  | attempt (p : Program) (handler : Exception → Program)
  /-- Has a configuration as the default in a block. -/
  | block (config : List Entry) (body : Program)

/-- The name of a block at a level of nesting. -/
def blockName (level : Nat) : String := String.ofList (List.replicate level '#')

theorem blockName_inj {i j : Nat} : blockName i = blockName j ↔ i = j := by
  rw [blockName, blockName, String.ofList_inj, List.replicate_inj]
  simp

/-- What comes out of a program. -/
structure Execution where
  /-- The session at the end. -/
  session : Session
  /-- The steps that were taken. -/
  steps : List Step := []
  /-- The exception that the program ends with. -/
  raised : Option Exception := none

namespace Execution

/-- The steps of an execution come after others. -/
def after (steps : List Step) (r : Execution) : Execution := { r with steps := steps ++ r.steps }

/-- Goes on unless something was raised. -/
def andThen (r : Execution) (next : Session → Execution) : Execution :=
  match r.raised with
  | some _ => r
  | none => (next r.session).after r.steps

/-- Goes on if something was raised. -/
def recover (r : Execution) (handler : Exception → Session → Execution) : Execution :=
  match r.raised with
  | some e => (handler e r.session).after r.steps
  | none => r

/-- Leaves a block at the end; what was raised in it goes on. -/
def close (id : String) (r : Execution) : Execution :=
  let x := match r.raised with
    | some _ => Step.abandon id
    | none => .leave id
  { r with session := (r.session.step x).value.1, steps := r.steps ++ [x] }

end Execution

/-- Takes a step and goes on with its answer.  An error is raised. -/
def perform (s : Session) (x : Step) (next : Session → Reply → Execution) : Execution :=
  match (s.step x).value with
  | (t, .failed e) => { session := t, steps := [x], raised := some (.failed e) }
  | (t, reply) => (next t reply).after [x]

/-- Runs a program at a level of nesting. -/
def Program.exec : Program → Nat → Session → Execution
  | .skip, _, s => { session := s }
  | .raise e, _, s => { session := s, raised := some e }
  | .command c next, level, s => s.perform c.step fun t reply => (next reply).exec level t
  | .seq p q, level, s => (p.exec level s).andThen (q.exec level)
  | .attempt p handler, level, s => (p.exec level s).recover fun e => (handler e).exec level
  | .block config body, level, s =>
    s.perform (.enter (blockName level) config) fun t _ =>
      (body.exec (level + 1) t).close (blockName level)

/-- The session after some steps. -/
def afterSteps (s : Session) (steps : List Step) : Session := (s.run steps).value.1

@[simp] theorem afterSteps_nil (s : Session) : s.afterSteps [] = s := by
  rw [afterSteps, run]
  rfl

@[simp] theorem afterSteps_cons (s : Session) (x : Step) (xs : List Step) :
    s.afterSteps (x :: xs) = (s.step x).value.1.afterSteps xs := by
  rw [afterSteps, run]
  rfl

theorem afterSteps_append (s : Session) (xs ys : List Step) :
    s.afterSteps (xs ++ ys) = (s.afterSteps xs).afterSteps ys := by
  induction xs generalizing s with
  | nil => rw [List.nil_append, afterSteps_nil]
  | cons x xs ih => rw [List.cons_append, afterSteps_cons, afterSteps_cons, ih]

/-! ### The configuration in force -/

/-- What can happen to the default in a step. -/
inductive Mark where
  /-- It becomes this configuration. -/
  | sets (c : Config)
  /-- It becomes this configuration in a block that begins. -/
  | opens (c : Config)
  /-- A block ends. -/
  | closes
  /-- It stays. -/
  | keeps

/-- What a step that a program can take means for the default.  A step whose configuration cannot
be made changes nothing. -/
def Step.mark : Step → Mark
  | .set config =>
    match Config.ofEntries config with
    | .ok c => .sets c.value
    | .error _ => .keeps
  | .reset => .sets {}
  | .enter _ config =>
    match Config.ofEntries config with
    | .ok c => .opens c.value
    | .error _ => .keeps
  | .leave _ => .closes
  | .abandon _ => .closes
  | _ => .keeps

/-- The configuration in force after some steps, of which the latest comes first: the last one
that was set or entered, or else the built-in one.  The number counts the blocks whose end was
passed on the way back and whose beginning was not, and what happened in them does not
count. -/
def inForce : Nat → List Step → Config
  | _, [] => {}
  | closed, x :: earlier =>
    match x.mark, closed with
    | .sets c, 0 => c
    | .sets _, k + 1 => inForce (k + 1) earlier
    | .opens c, 0 => c
    | .opens _, k + 1 => inForce k earlier
    | .closes, k => inForce (k + 1) earlier
    | .keeps, k => inForce k earlier

section

variable {x : Step} {c : Config}

theorem inForce_keeps (h : x.mark = .keeps) (k : Nat) (earlier : List Step) :
    inForce k (x :: earlier) = inForce k earlier := by
  simp only [inForce, h]

theorem inForce_closes (h : x.mark = .closes) (k : Nat) (earlier : List Step) :
    inForce k (x :: earlier) = inForce (k + 1) earlier := by
  simp only [inForce, h]

theorem inForce_zero_sets (h : x.mark = .sets c) (earlier : List Step) :
    inForce 0 (x :: earlier) = c := by
  simp only [inForce, h]

theorem inForce_succ_sets (h : x.mark = .sets c) (k : Nat) (earlier : List Step) :
    inForce (k + 1) (x :: earlier) = inForce (k + 1) earlier := by
  simp only [inForce, h]

theorem inForce_zero_opens (h : x.mark = .opens c) (earlier : List Step) :
    inForce 0 (x :: earlier) = c := by
  simp only [inForce, h]

theorem inForce_succ_opens (h : x.mark = .opens c) (k : Nat) (earlier : List Step) :
    inForce (k + 1) (x :: earlier) = inForce k earlier := by
  simp only [inForce, h]

end

/-! ### Paths -/

/-- A step leaves a block, with or without a failure. -/
def Step.Closes (id : String) (x : Step) : Prop := x = .leave id ∨ x = .abandon id

/-- The steps that a program can take at a level, with the level at which it goes on. -/
inductive Moves : Nat → Step → Nat → Prop where
  /-- A command stays at its level. -/
  | command (level : Nat) (c : Command) : Moves level c.step level
  /-- A block is not entered when its configuration cannot be made. -/
  | refused (level : Nat) {config : List Entry} {e : UnsupportedTable}
      (h : Config.ofEntries config = .error e) :
      Moves level (.enter (blockName level) config) level
  /-- A block is entered under the name of its level. -/
  | enters (level : Nat) {config : List Entry} {c : Logged Config}
      (h : Config.ofEntries config = .ok c) :
      Moves level (.enter (blockName level) config) (level + 1)
  /-- Only the innermost block is left. -/
  | closes (level : Nat) {x : Step} (h : x.Closes (blockName level)) : Moves (level + 1) x level

/-- Steps that follow one another, with the levels at the beginning and at the end. -/
inductive Path : Nat → List Step → Nat → Prop where
  | nil (level : Nat) : Path level [] level
  | cons {i j k : Nat} {x : Step} {xs : List Step} (hx : Moves i x j) (hxs : Path j xs k) :
      Path i (x :: xs) k

namespace Path

variable {i j k : Nat} {xs ys : List Step}

theorem append (hxs : Path i xs j) (hys : Path j ys k) : Path i (xs ++ ys) k := by
  induction hxs with
  | nil => exact hys
  | cons hx _ ih => exact .cons hx (ih hys)

theorem exists_of_append (h : Path i (xs ++ ys) k) : ∃ j, Path i xs j ∧ Path j ys k := by
  induction xs generalizing i with
  | nil => exact ⟨i, .nil i, h⟩
  | cons x xs ih =>
    cases h with
    | cons hx hxs =>
      obtain ⟨j, hxs, hys⟩ := ih hxs
      exact ⟨j, .cons hx hxs, hys⟩

/-- A step on a path, with the paths to it and from it. -/
theorem exists_of_append_cons {x : Step} (h : Path i (xs ++ x :: ys) k) :
    ∃ j j', Path i xs j ∧ Moves j x j' ∧ Path j' ys k := by
  obtain ⟨j, hxs, hrest⟩ := h.exists_of_append
  cases hrest with
  | cons hx hys => exact ⟨j, _, hxs, hx, hys⟩

end Path

theorem Step.Closes.mark {id : String} {x : Step} (h : x.Closes id) : x.mark = .closes := by
  rcases h with rfl | rfl <;> rfl

theorem Step.Closes.unique {id name : String} {x : Step} (h : x.Closes id) (h' : x.Closes name) :
    id = name := by
  rcases h with rfl | rfl <;> rcases h' with h' | h' <;> injection h'

theorem Command.not_closes (c : Command) (id : String) : ¬c.step.Closes id := by
  cases c <;> rintro (h | h) <;> cases h

theorem mark_enter_ok {id : String} {config : List Entry} {c : Logged Config}
    (h : Config.ofEntries config = .ok c) : (Step.enter id config).mark = .opens c.value := by
  rw [Step.mark, h]

theorem mark_enter_error {id : String} {config : List Entry} {e : UnsupportedTable}
    (h : Config.ofEntries config = .error e) : (Step.enter id config).mark = .keeps := by
  rw [Step.mark, h]

namespace Moves

variable {i j : Nat} {x : Step}

/-- A step that leaves a block goes one level up, from the block of that name. -/
theorem of_closes {id : String} (h : Moves i x j) (hx : x.Closes id) :
    i = j + 1 ∧ id = blockName j := by
  cases h with
  | command _ c => exact absurd hx (c.not_closes id)
  | refused => rcases hx with hx | hx <;> cases hx
  | enters => rcases hx with hx | hx <;> cases hx
  | closes _ h => exact ⟨rfl, hx.unique h⟩

/-- A step that enters a configuration goes one level down, into the block of that name. -/
theorem of_enter {id : String} {config : List Entry} {c : Logged Config}
    (h : Moves i (.enter id config) j) (hc : Config.ofEntries config = .ok c) :
    id = blockName i ∧ j = i + 1 := by
  generalize hx : Step.enter id config = x at h
  cases h with
  | command _ d => cases d <;> cases hx
  | refused _ h =>
    -- the configuration can be made, so that it is not refused
    cases hx
    rw [hc] at h
    cases h
  | enters =>
    cases hx
    exact ⟨rfl, rfl⟩
  | closes _ h => rcases h with rfl | rfl <;> cases hx

/-- A block stays open as long as it is not left. -/
theorem lt_of_not_closes {m : Nat} (h : Moves i x j) (hm : m < i)
    (hx : ¬x.Closes (blockName m)) : m < j := by
  cases h with
  | command | refused => exact hm
  | enters => omega
  | closes _ h =>
    -- a block further in is left
    have hne : m ≠ j := fun heq => hx (heq ▸ h)
    omega

end Moves

/-! ### Steps of a session -/

section

variable (s : Session)

theorem step_enter_ok {config : List Entry} {c : Logged Config}
    (h : Config.ofEntries config = .ok c) (id : String) :
    (s.step (.enter id config)).value = (s.enter id c.value).showing := by
  rw [step, h]
  rfl

theorem step_enter_error {config : List Entry} {e : UnsupportedTable}
    (h : Config.ofEntries config = .error e) (id : String) :
    (s.step (.enter id config)).value = (s, .failed (.unsupportedTable e)) := by
  rw [step, h]
  rfl

theorem step_closes {id : String} {x : Step} (h : x.Closes id) :
    (s.step x).value.1 = s.leave id := by
  rcases h with rfl | rfl <;> rw [step] <;> rfl

/-- Showing a tree leaves the session as it is, also when it fails. -/
theorem step_render (node : Option Node) (entries : List Entry) :
    (s.step (.render node none entries)).value.1 = s := by
  rw [step]
  rfl

theorem step_use (id : String) (node : Option Node) :
    (s.step (.use id node)).value =
      (s, .text (Node.renderOption (s.renderer id) node).value) := by
  rw [step]
  rfl

theorem step_create (id : String) :
    (s.step (.create id none)).value = (s.addRenderer id s.current, .config s.current) := by
  rw [step]
  rfl

/-- A command sets the default to what it says, or leaves it, and opens and closes nothing. -/
theorem step_command (c : Command) :
    (s.step c.step).value.1.saved = s.saved ∧
      (c.step.mark = .keeps ∧ (s.step c.step).value.1.current = s.current ∨
        c.step.mark = .sets (s.step c.step).value.1.current) := by
  cases c with
  | set config =>
    rw [Command.step, step, Step.mark]
    cases Config.ofEntries config with
    | error e => exact ⟨rfl, .inl ⟨rfl, rfl⟩⟩
    | ok c => exact ⟨rfl, .inr rfl⟩
  | reset =>
    rw [Command.step, step]
    exact ⟨rfl, .inr rfl⟩
  | create id =>
    rw [Command.step, step_create]
    exact ⟨rfl, .inl ⟨rfl, rfl⟩⟩
  | use id node =>
    rw [Command.step, step_use]
    exact ⟨rfl, .inl ⟨rfl, rfl⟩⟩
  | render node entries =>
    rw [Command.step, step_render]
    exact ⟨rfl, .inl ⟨rfl, rfl⟩⟩

end

/-! ### What a session keeps -/

/-- While a block is open, the configuration that was in force before it stays the same: at level
`i` it is found by looking back past the ends of the `i - m` innermost blocks. -/
theorem inForce_sub_cons {i j m : Nat} {x : Step} (h : Moves i x j) (hi : m < i) (hj : m < j)
    (earlier : List Step) : inForce (j - m) (x :: earlier) = inForce (i - m) earlier := by
  cases h with
  | command _ c =>
    rcases (step_command {} c).2 with ⟨hmark, -⟩ | hmark
    · exact inForce_keeps hmark _ _
    · -- what is set in a block does not reach what is outside
      obtain ⟨k, hk⟩ : ∃ k, i - m = k + 1 := ⟨i - m - 1, by omega⟩
      rw [hk]
      exact inForce_succ_sets hmark k earlier
  | refused _ h => exact inForce_keeps (mark_enter_error h) _ _
  | enters _ h =>
    -- one block more has to be passed, and its beginning is found first
    have hsub : i + 1 - m = (i - m) + 1 := by omega
    rw [hsub]
    exact inForce_succ_opens (mark_enter_ok h) _ _
  | closes _ h =>
    have hsub : j + 1 - m = (j - m) + 1 := by omega
    rw [hsub]
    exact inForce_closes h.mark _ _

/-- The same along a path that does not leave the block. -/
theorem Path.inForce_sub {i k m : Nat} {xs : List Step} (h : Path i xs k) (hi : m < i)
    (hopen : ∀ x ∈ xs, ¬x.Closes (blockName m)) (earlier : List Step) :
    inForce (k - m) (xs.reverse ++ earlier) = inForce (i - m) earlier := by
  induction h generalizing earlier with
  | nil => rfl
  | cons hx _ ih =>
    obtain ⟨hopenx, hopenxs⟩ := List.forall_mem_cons.mp hopen
    have hj := hx.lt_of_not_closes hi hopenx
    rw [List.reverse_cons, List.append_assoc, List.singleton_append, ih hj hopenxs,
      inForce_sub_cons hx hi hj]

/-- What a session has at a level, after steps of which the latest comes first: the default is
the configuration in force, and each open block keeps the one that was in force before it. -/
structure Tracks (level : Nat) (earlier : List Step) (s : Session) : Prop where
  current : s.current = inForce 0 earlier
  saved : s.saved =
    (List.range level).map fun m => (blockName m, inForce (level - m) earlier)

/-- What the blocks that stay open keep is the same after a step. -/
theorem map_inForce_cons {i j n : Nat} {x : Step} (h : Moves i x j) (hi : n ≤ i) (hj : n ≤ j)
    (earlier : List Step) :
    ((List.range n).map fun m => (blockName m, inForce (i - m) earlier)) =
      (List.range n).map fun m => (blockName m, inForce (j - m) (x :: earlier)) := by
  refine List.map_congr_left fun m hm => ?_
  have hm := List.mem_range.mp hm
  rw [inForce_sub_cons h (by omega) (by omega)]

/-- The innermost block is found by its name, and only it is taken away. -/
theorem leave_blockName {s : Session} {level : Nat} {f : Nat → Config}
    (h : s.saved = (List.range (level + 1)).map fun m => (blockName m, f m)) :
    s.leave (blockName level) =
      { s with
        current := f level
        saved := (List.range level).map fun m => (blockName m, f m) } := by
  rw [List.range_succ, List.map_append] at h
  -- the names of the other blocks are shorter
  have hlookup : lookup (blockName level) s.saved = some (f level) := by
    rw [h, lookup_append, List.map_singleton, lookup_cons, if_pos rfl]
    rfl
  have hothers : ∀ p ∈ (List.range level).map (fun m => (blockName m, f m)),
      decide (p.1 ≠ blockName level) = true := by
    intro p hp
    obtain ⟨m, hm, rfl⟩ := List.mem_map.mp hp
    have hm := List.mem_range.mp hm
    have hne : m ≠ level := by omega
    exact decide_eq_true fun heq => hne (blockName_inj.mp heq)
  rw [leave, hlookup, h, List.filter_append, List.filter_eq_self.mpr hothers]
  simp

/-- One step of a program. -/
theorem Moves.tracks {i j : Nat} {x : Step} {earlier : List Step} {s : Session}
    (h : Moves i x j) (hs : Tracks i earlier s) :
    Tracks j (x :: earlier) (s.step x).value.1 := by
  have hstep := h
  cases h with
  | command _ c =>
    obtain ⟨hsaved, hcurrent⟩ := s.step_command c
    refine ⟨?_, by rw [hsaved, hs.saved, map_inForce_cons hstep (Nat.le_refl i) (Nat.le_refl i)]⟩
    rcases hcurrent with ⟨hmark, hcurrent⟩ | hmark
    · rw [hcurrent, hs.current, inForce_keeps hmark]
    · rw [inForce_zero_sets hmark]
  | refused _ h =>
    -- the session stays as it is, and the step does not count when looking back
    rw [step_enter_error s h]
    refine ⟨?_, by rw [hs.saved, map_inForce_cons hstep (Nat.le_refl i) (Nat.le_refl i)]⟩
    rw [hs.current, inForce_keeps (mark_enter_error h)]
  | @enters _ config _ h =>
    rw [step_enter_ok s h]
    refine ⟨(inForce_zero_opens (mark_enter_ok h) earlier).symm, ?_⟩
    -- the new block keeps the default from before, the others what they kept
    have hnew : inForce (i + 1 - i) (.enter (blockName i) config :: earlier) = s.current := by
      rw [hs.current, Nat.add_sub_cancel_left, inForce_succ_opens (mark_enter_ok h)]
    have hothers := map_inForce_cons hstep (Nat.le_refl i) (Nat.le_succ i) earlier
    rw [List.range_succ, List.map_append, List.map_singleton, hnew, ← hothers, ← hs.saved]
    rfl
  | closes _ h =>
    -- what the innermost block kept is in force again
    rw [step_closes s h, leave_blockName hs.saved]
    refine ⟨?_, map_inForce_cons hstep (Nat.le_succ j) (Nat.le_refl j) earlier⟩
    rw [inForce_closes h.mark, Nat.add_sub_cancel_left]

/-- **Along a path the default is the configuration in force.** -/
theorem Path.tracks {i k : Nat} {xs earlier : List Step} {s : Session} (h : Path i xs k)
    (hs : Tracks i earlier s) : Tracks k (xs.reverse ++ earlier) (s.afterSteps xs) := by
  induction h generalizing earlier s with
  | nil => rwa [afterSteps_nil]
  | cons hx _ ih =>
    rw [afterSteps_cons, List.reverse_cons, List.append_assoc]
    exact ih (hx.tracks hs)

/-- A step that makes no renderer of a name leaves the one that there is. -/
theorem Moves.lookup_renderers {i j : Nat} {x : Step} {id : String} (h : Moves i x j)
    (hx : x ≠ .create id none) (s : Session) :
    lookup id (s.step x).value.1.renderers = lookup id s.renderers := by
  cases h with
  | command _ c =>
    cases c with
    | set config =>
      rw [Command.step, step]
      cases Config.ofEntries config <;> rfl
    | reset =>
      rw [Command.step, step]
      rfl
    | create name =>
      -- a renderer of another name is added at the end
      have hname : name ≠ id := fun heq => hx (heq ▸ rfl)
      rw [Command.step, step_create, addRenderer, lookup_append, lookup_cons, if_neg hname]
      rfl
    | use name node => rw [Command.step, step_use]
    | render node entries => rw [Command.step, step_render]
  | refused _ h => rw [step_enter_error s h]
  | enters _ h => rw [step_enter_ok s h]; rfl
  | closes _ h =>
    rw [step_closes s h, leave]
    split <;> rfl

theorem Path.lookup_renderers {i k : Nat} {xs : List Step} {id : String} (h : Path i xs k)
    (hxs : ∀ x ∈ xs, x ≠ .create id none) (s : Session) :
    lookup id (s.afterSteps xs).renderers = lookup id s.renderers := by
  induction h generalizing s with
  | nil => rw [afterSteps_nil]
  | cons hx _ ih =>
    obtain ⟨hfirst, hrest⟩ := List.forall_mem_cons.mp hxs
    rw [afterSteps_cons, ih hrest, hx.lookup_renderers hfirst]

/-! ### Executions -/

/-- An execution from a session at a level reports its steps, and these end at that level. -/
structure Execution.Follows (level : Nat) (s : Session) (r : Execution) : Prop where
  session : r.session = s.afterSteps r.steps
  path : Path level r.steps level

/-- A step either fails, and its error is raised, or the execution goes on after it. -/
theorem perform_cases (s : Session) (x : Step) (next : Session → Reply → Execution) :
    (∃ e, (s.step x).value.2 = .failed e ∧
        s.perform x next = ⟨(s.step x).value.1, [x], some (.failed e)⟩) ∨
      (∀ e, (s.step x).value.2 ≠ .failed e) ∧
        s.perform x next = (next (s.step x).value.1 (s.step x).value.2).after [x] := by
  unfold perform
  split
  · next t e heq => exact .inl ⟨e, by rw [heq], by rw [heq]⟩
  · next t reply hreply heq =>
    rw [heq]
    exact .inr ⟨hreply, rfl⟩

namespace Execution.Follows

variable {level : Nat} {s : Session} {r : Execution}

/-- Nothing was done. -/
theorem nil (raised : Option Exception) : Follows level s ⟨s, [], raised⟩ :=
  ⟨(afterSteps_nil s).symm, .nil level⟩

/-- One step was taken, at the same level. -/
theorem single {x : Step} (hx : Moves level x level) (raised : Option Exception) :
    Follows level s ⟨(s.step x).value.1, [x], raised⟩ :=
  ⟨by rw [afterSteps_cons, afterSteps_nil], .cons hx (.nil level)⟩

/-- Steps that end at the same level come first. -/
theorem after {xs : List Step} (hxs : Path level xs level) (h : Follows level (s.afterSteps xs) r) :
    Follows level s (r.after xs) where
  session := h.session.trans (afterSteps_append s xs r.steps).symm
  path := hxs.append h.path

theorem andThen {next : Session → Execution} (h : Follows level s r)
    (hnext : ∀ t, Follows level t (next t)) : Follows level s (r.andThen next) := by
  unfold Execution.andThen
  split
  · exact h
  · exact after h.path (h.session ▸ hnext r.session)

theorem recover {handler : Exception → Session → Execution} (h : Follows level s r)
    (hhandler : ∀ e t, Follows level t (handler e t)) : Follows level s (r.recover handler) := by
  unfold Execution.recover
  split
  · next e _ => exact after h.path (h.session ▸ hhandler e r.session)
  · exact h

/-- A block around an execution: it is entered before and left after, in either way. -/
theorem block {config : List Entry} {c : Logged Config} (hc : Config.ofEntries config = .ok c)
    (h : Follows (level + 1) (s.step (.enter (blockName level) config)).value.1 r) :
    Follows level s ((r.close (blockName level)).after [.enter (blockName level) config]) := by
  obtain ⟨x, hx, hclose⟩ : ∃ x : Step, x.Closes (blockName level) ∧
      r.close (blockName level) = ⟨(r.session.step x).value.1, r.steps ++ [x], r.raised⟩ := by
    unfold Execution.close
    split
    · -- something was raised in it
      exact ⟨_, .inr rfl, rfl⟩
    · exact ⟨_, .inl rfl, rfl⟩
  rw [hclose]
  constructor
  · change (r.session.step x).value.1 =
      s.afterSteps (.enter (blockName level) config :: (r.steps ++ [x]))
    rw [afterSteps_cons, afterSteps_append, ← h.session, afterSteps_cons, afterSteps_nil]
  · exact .cons (.enters level hc) (h.path.append (.cons (.closes level hx) (.nil level)))

end Execution.Follows

/-- **The steps of a program form a path** that ends at the level of the program, and they lead to
its session. -/
theorem Program.follows_exec (p : Program) (level : Nat) (s : Session) :
    (p.exec level s).Follows level s := by
  induction p generalizing level s with
  | skip => exact .nil _
  | raise e => exact .nil _
  | command c next ih =>
    have hmoves : Moves level c.step level := .command level c
    rcases perform_cases s c.step fun t reply => (next reply).exec level t with
      ⟨e, -, hexec⟩ | ⟨-, hexec⟩
    · -- a command that fails is still a step
      rw [exec, hexec]
      exact .single hmoves _
    · rw [exec, hexec]
      refine .after (.cons hmoves (.nil level)) ?_
      rw [afterSteps_cons, afterSteps_nil]
      exact ih _ level _
  | seq p q ihp ihq => exact (ihp level s).andThen (ihq level)
  | attempt p handler ihp ihhandler => exact (ihp level s).recover fun e t => ihhandler e level t
  | block config body ih =>
    rcases perform_cases s (.enter (blockName level) config) fun t _ =>
      (body.exec (level + 1) t).close (blockName level) with ⟨e, hfailed, hexec⟩ | ⟨hgoes, hexec⟩
    all_goals cases hconfig : Config.ofEntries config
    · -- the configuration cannot be made
      rw [exec, hexec]
      exact .single (.refused level hconfig) _
    · rw [step_enter_ok s hconfig] at hfailed
      cases hfailed
    · rw [step_enter_error s hconfig] at hgoes
      exact absurd rfl (hgoes _)
    · -- the block is entered
      rw [exec, hexec]
      exact .block hconfig (ih (level + 1) _)

/-! ### Scoping -/

/-- What is promised of the default in a session that takes some steps from the built-in default.
-/
structure IsScoped (steps : List Step) : Prop where
  /-- When a block is left, with or without a failure, the default is the one from before it was
  entered. -/
  restores (pre body rest : List Step) (id : String) (config : List Entry) (c : Logged Config)
    (x : Step) : steps = pre ++ .enter id config :: (body ++ x :: rest) →
      Config.ofEntries config = .ok c → x.Closes id → (∀ y ∈ body, ¬y.Closes id) →
      (afterSteps {} (pre ++ .enter id config :: (body ++ [x]))).current =
        (afterSteps {} pre).current
  /-- At every point the default is the configuration in force. -/
  current (pre rest : List Step) : steps = pre ++ rest →
    (afterSteps {} pre).current = inForce 0 pre.reverse
  /-- A renderer shows every tree under the default from when it was made. -/
  renderer (pre between rest : List Step) (id : String) (node : Option Node) :
    steps = pre ++ .create id none :: (between ++ .use id node :: rest) →
      (∀ y ∈ between, y ≠ .create id none) →
      ((afterSteps {} (pre ++ .create id none :: between)).step (.use id node)).value.2 =
        .text (Node.renderOption (afterSteps {} pre).current node).value
  /-- Showing a tree under the default, with or without options, does not change the default, also
  when it fails. -/
  render (pre rest : List Step) (node : Option Node) (entries : List Entry) :
    steps = pre ++ .render node none entries :: rest →
      (afterSteps {} (pre ++ [.render node none entries])).current = (afterSteps {} pre).current

namespace Path

variable {level : Nat}

/-- On a path from the outermost level the default is the configuration in force. -/
theorem current_eq_inForce {pre rest : List Step} (h : Path 0 (pre ++ rest) level) :
    (afterSteps {} pre).current = inForce 0 pre.reverse := by
  obtain ⟨i, hpre, -⟩ := h.exists_of_append
  have hstart : Tracks 0 [] {} := ⟨rfl, rfl⟩
  have hcurrent := (hpre.tracks hstart).current
  rwa [List.append_nil] at hcurrent

/-- When a block is left, the default is the one from before it was entered: looking back from the
end of the block passes over all of it. -/
theorem current_of_closes {pre body rest : List Step} {id : String} {config : List Entry}
    {c : Logged Config} {x : Step}
    (h : Path 0 (pre ++ .enter id config :: (body ++ x :: rest)) level)
    (hc : Config.ofEntries config = .ok c) (hx : x.Closes id) (hbody : ∀ y ∈ body, ¬y.Closes id) :
    (afterSteps {} (pre ++ .enter id config :: (body ++ [x]))).current =
      (afterSteps {} pre).current := by
  obtain ⟨i, j, -, henter, hafter⟩ := h.exists_of_append_cons
  obtain ⟨k, l, hpath, hclose, -⟩ := hafter.exists_of_append_cons
  -- the block that is left is the one that was entered, so its level is the same
  obtain ⟨rfl, rfl⟩ := henter.of_enter hc
  obtain ⟨rfl, hname⟩ := hclose.of_closes hx
  obtain rfl := blockName_inj.mp hname
  have hleft : Path 0 ((pre ++ .enter (blockName i) config :: (body ++ [x])) ++ rest) level := by
    simpa using h
  have hinside := hpath.inForce_sub (Nat.lt_succ_self i) hbody
    (.enter (blockName i) config :: pre.reverse)
  rw [Nat.add_sub_cancel_left, inForce_succ_opens (mark_enter_ok hc)] at hinside
  calc
    (afterSteps {} (pre ++ .enter (blockName i) config :: (body ++ [x]))).current
        = inForce 0 (x :: (body.reverse ++ .enter (blockName i) config :: pre.reverse)) := by
          rw [hleft.current_eq_inForce]
          simp
    _ = inForce 1 (body.reverse ++ .enter (blockName i) config :: pre.reverse) :=
          inForce_closes hx.mark _ _
    _ = inForce 0 pre.reverse := hinside
    _ = (afterSteps {} pre).current := h.current_eq_inForce.symm

/-- A renderer keeps the default from when it was made. -/
theorem renderer_of_create {pre between rest : List Step} {id : String}
    (h : Path 0 (pre ++ .create id none :: (between ++ rest)) level)
    (hbetween : ∀ y ∈ between, y ≠ .create id none) :
    (afterSteps {} (pre ++ .create id none :: between)).renderer id =
      (afterSteps {} pre).current := by
  obtain ⟨i, j, -, -, hafter⟩ := h.exists_of_append_cons
  obtain ⟨k, hpath, -⟩ := hafter.exists_of_append
  rw [renderer, afterSteps_append, afterSteps_cons, hpath.lookup_renderers hbetween, step_create,
    addRenderer, lookup_append, lookup_cons, if_pos rfl]
  rfl

/-- The default is scoped along every path from the outermost level. -/
theorem isScoped {steps : List Step} (h : Path 0 steps level) : IsScoped steps where
  restores pre body rest id config c x hsteps hc hx hbody :=
    (hsteps ▸ h).current_of_closes hc hx hbody
  current pre rest hsteps := (hsteps ▸ h).current_eq_inForce
  renderer pre between rest id node hsteps hbetween := by
    subst hsteps
    rw [step_use, h.renderer_of_create hbetween]
  render pre rest node entries _ := by
    rw [afterSteps_append, afterSteps_cons, afterSteps_nil, step_render]

end Path

/-- **The default of a program is scoped.**  The session of a program that starts from the built-in
default comes from its steps, along which the default is scoped, and at the end all blocks are
left. -/
theorem isScoped_exec (p : Program) :
    (p.exec 0 {}).session = afterSteps {} (p.exec 0 {}).steps ∧ (p.exec 0 {}).session.saved = [] ∧
      IsScoped (p.exec 0 {}).steps := by
  obtain ⟨hsession, hpath⟩ := p.follows_exec 0 {}
  have hstart : Tracks 0 [] {} := ⟨rfl, rfl⟩
  refine ⟨hsession, ?_, hpath.isScoped⟩
  rw [hsession, (hpath.tracks hstart).saved]
  rfl

/-- An array of strings. -/
def stringArray : Node :=
  .mk
    { tag := .str "TypeApplication"
      base := some (.mk { tag := .str "NameExpression", name := some "Array" })
      arguments := some [some (.mk { tag := .str "NameExpression", name := some "string" })] }

/-- The configuration that writes entities. -/
def entities : List Entry := [.setting "html_safe" (.bool true)]

/-- Options with a link table that cannot be used. -/
def brokenLinks : List Entry := [.links (.object { typeName := "int" })]

/-- A renderer is made in a block, the default is reset in the block, and a failure leaves the block
and one inside it.  The failure is caught, and the renderer is used then. -/
def escapingFailure : Program :=
  .attempt
    (.block entities
      (.command (.create "made inside") fun _ =>
        .command .reset fun _ =>
          .block [.setting "suppress_modifiers" (.bool true)]
            (.command (.render none brokenLinks) fun _ => .command (.set entities) fun _ => .skip)))
    fun _ => .command (.use "made inside" (some stringArray)) fun _ => .skip

theorem escapingFailure.steps : (escapingFailure.exec 0 {}).steps =
    [.enter "" entities, .create "made inside" none, .reset,
      .enter "#" [.setting "suppress_modifiers" (.bool true)], .render none none brokenLinks,
      .abandon "#", .abandon "", .use "made inside" (some stringArray)] := by
  rfl

/-- After the failure the default is the built-in one, and the renderer still writes entities. -/
theorem isScoped_exec_escapingFailure :
    (afterSteps {} (escapingFailure.exec 0 {}).steps.dropLast).current = {} ∧
      ((afterSteps {} (escapingFailure.exec 0 {}).steps.dropLast).step
        (.use "made inside" (some stringArray))).value.2 = .text "Array&lt;string&gt;" := by
  obtain ⟨-, -, hscoped⟩ := isScoped_exec escapingFailure
  have hrestored := hscoped.restores []
    [.create "made inside" none, .reset, .enter "#" [.setting "suppress_modifiers" (.bool true)],
      .render none none brokenLinks, .abandon "#"]
    [.use "made inside" (some stringArray)] "" entities _ (.abandon "") escapingFailure.steps rfl
    (.inr rfl) (by simp [Step.Closes])
  have hshown := hscoped.renderer [.enter "" entities]
    [.reset, .enter "#" [.setting "suppress_modifiers" (.bool true)],
      .render none none brokenLinks, .abandon "#", .abandon ""] [] "made inside"
    (some stringArray) escapingFailure.steps (by simp)
  have htext : (Node.renderOption (afterSteps {} [.enter "" entities]).current
      (some stringArray)).value = "Array&lt;string&gt;" := by
    decide +kernel
  rw [htext] at hshown
  rw [escapingFailure.steps]
  exact ⟨hrestored, hshown⟩

end Session

end TypeText
