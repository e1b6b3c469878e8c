import TypeText.Error
import TypeText.Render

/-!
# Sessions

A session has a default configuration, which is used wherever none is given.  It
can be set, reset, or replaced for a while: what is entered is left again, and
leaving brings back the default from before.  A renderer keeps the configuration
that it was made with.  A thread starts afresh, a copy from the present default,
and neither changes the default of the session that runs it; renderers and entered
configurations are shared.

## Main definitions

* `Session` — the state; `setDefault`, `enter`, `leave`, `addRenderer` change it.
* `Step`, `Reply` — what can be done, and its answer.
* `Session.step`, `Session.run` — one step, and a list of steps.
-/

set_option autoImplicit false

namespace TypeText

/-! ### State -/

/-- The state of a session. -/
structure Session where
  /-- The configuration in force. -/
  current : Config := {}
  /-- For each entered configuration that is not left yet, the default from before. -/
  saved : List (String × Config) := []
  /-- The renderers, each with its configuration. -/
  renderers : List (String × Config) := []

namespace Session

/-- Makes a configuration the default. -/
def setDefault (s : Session) (c : Config) : Session := { s with current := c }

/-- Makes a configuration the default until it is left. -/
def enter (s : Session) (id : String) (c : Config) : Session :=
  { s with current := c, saved := s.saved ++ [(id, s.current)] }

/-- Leaves an entered configuration: the default is again the one from before it was
entered.  What was left before cannot be left again. -/
def leave (s : Session) (id : String) : Session :=
  match lookup id s.saved with
  | some c => { s with current := c, saved := s.saved.filter (·.1 ≠ id) }
  | none => s

/-- Makes a renderer. -/
def addRenderer (s : Session) (id : String) (c : Config) : Session :=
  { s with renderers := s.renderers ++ [(id, c)] }

/-- The configuration of a renderer. -/
def renderer (s : Session) (id : String) : Config := (lookup id s.renderers).getD s.current

/-! ### Steps -/

/-- What can be done in a session.  Configurations are given as option lists. -/
inductive Step where
  /-- Sets the default. -/
  | set (config : List Entry)
  /-- Goes back to the built-in default. -/
  | reset
  /-- Looks at the default. -/
  | get
  /-- Puts options on top of the default. -/
  | setOptions (entries : List Entry)
  /-- Enters a configuration. -/
  | enter (id : String) (config : List Entry)
  /-- Leaves an entered configuration. -/
  | leave (id : String)
  /-- Leaves an entered configuration because of a failure. -/
  | abandon (id : String)
  /-- Makes a renderer, for the default if no configuration is given. -/
  | create (id : String) (config : Option (List Entry))
  /-- Shows a tree with a renderer. -/
  | use (id : String) (node : Option Node)
  /-- Shows a tree with options on top of a configuration or the default. -/
  | render (node : Option Node) (config : Option (List Entry)) (entries : List Entry)
  /-- Runs steps from the built-in default. -/
  | thread (steps : List Step)
  /-- Runs steps from a copy of the default. -/
  | copy (steps : List Step)
  /-- A step that could not be read. -/
  | invalid (e : Error)

/-- The answer to a step. -/
inductive Reply where
  /-- A configuration. -/
  | config (c : Config)
  /-- A text. -/
  | text (s : String)
  /-- The failure goes on after the configuration is left. -/
  | notSwallowed
  /-- The answers to inner steps. -/
  | steps (replies : List Reply)
  /-- An error; the session goes on. -/
  | failed (e : Error)

/-- The configuration of an option list, or the default where none is given. -/
def configOr (s : Session) :
    Option (List Entry) → Except UnsupportedTable (Logged Config)
  | none => .ok ⟨s.current, []⟩
  | some entries => Config.ofEntries entries

/-- Goes on with a configuration that could be made; otherwise the session stays as
it is. -/
def withConfig (s : Session) (c : Except UnsupportedTable (Logged Config))
    (next : Config → Session × Reply) : Logged (Session × Reply) :=
  match c with
  | .ok c => next <$> c
  | .error e => pure (s, .failed (.unsupportedTable e))

/-- A session together with its default as the answer. -/
def showing (s : Session) : Session × Reply := (s, .config s.current)

/-- Shows a tree with options on top of a configuration. -/
def renderReply (node : Option Node) (c : Config) (entries : List Entry) : Logged Reply :=
  match renderWith node c entries with
  | .ok text => Reply.text <$> text
  | .error e => pure (.failed (.unsupportedTable e))

mutual

/-- One step: the next state and the answer. -/
def step (s : Session) : Step → Logged (Session × Reply)
  | .set config => s.withConfig (Config.ofEntries config) fun c => (s.setDefault c).showing
  | .reset => pure (s.setDefault {}).showing
  | .get => pure s.showing
  | .setOptions entries =>
    s.withConfig (s.current.override entries) fun c => (s.setDefault c).showing
  | .enter id config => s.withConfig (Config.ofEntries config) fun c => (s.enter id c).showing
  | .leave id => pure (s.leave id).showing
  | .abandon id => pure (s.leave id, .notSwallowed)
  | .create id config =>
    s.withConfig (s.configOr config) fun c => (s.addRenderer id c, .config c)
  | .use id node => do
    let text ← Node.renderOption (s.renderer id) node
    return (s, .text text)
  | .render node config entries =>
    match s.configOr config with
    | .ok c => do
      let reply ← renderReply node (← c) entries
      return (s, reply)
    | .error e => pure (s, .failed (.unsupportedTable e))
  | .thread steps => do
    let (t, replies) ← run (s.setDefault {}) steps
    return (t.setDefault s.current, .steps replies)
  | .copy steps => do
    let (t, replies) ← run s steps
    return (t.setDefault s.current, .steps replies)
  | .invalid e => pure (s, .failed e)

/-- A list of steps: the final state and the answers. -/
def run (s : Session) : List Step → Logged (Session × List Reply)
  | [] => pure (s, [])
  | x :: xs => do
    let (s, reply) ← step s x
    let (s, replies) ← run s xs
    return (s, reply :: replies)

end

end Session

end TypeText
