import Siso.Cred.Helper

/-!
# The `luci-auth` token source

`luciAuthTokenSource.Token` runs `luci-auth token`, under `luci-auth context` when the source
has context arguments, with the source's `args` as flags, or Siso's default scopes when it has
none.  When the command fails and the source has neither context arguments nor `args`,
`fallback` sets `args` to `--scopes-context` and the loop runs the command again.  The new
`args` stay: every later call runs with `--scopes-context`, is named `luci-auth-context`, and
never falls back.  Once a token is parsed, `Email` runs `luci-auth info` under a `sync.Once`.

So the loop runs at most twice.  Over its life a source runs `luci-auth token` once for each
call, and once more at most, only when it has no context arguments.  It runs `luci-auth info`
at most once, and every token it returns carries the one email that run gave, empty when the run
failed.  Unlike `Token`, `Email` puts no `--` between the context arguments and its own command.

What `cmd.Run()` gives for an argument list is an input of the model: its error as text, the
exit code and the two outputs.  `json.Unmarshal` of the two responses and `%q` are parameters.
The 30 s deadline of the commands belongs to the world running them.  `mu` only makes
`fallback` and `flags` atomic, and one caller is modelled.
-/

namespace Siso.Cred

open Go

/-- The fields of a `luciAuthTokenSource`, `once` saying whether `Email` has run. -/
structure LuciAuthTokenSource where
  luciAuthPath : List UInt8
  contextArgs : List (List UInt8)
  args : List (List UInt8)
  once : Bool
  email : List UInt8
  deriving DecidableEq, Repr

/-- `' '`. -/
def space : UInt8 := 32

/-- `[]string{"--scopes-context"}`. -/
def scopesContext : List (List UInt8) := [str "--scopes-context"]

namespace LuciAuthTokenSource

/-- `&luciAuthTokenSource{luciAuthPath: credHelperPath, contextArgs: args}`, the source
`AuthOpts` makes for a helper named `luci-auth`. -/
def new (credHelperPath : List UInt8) (args : List (List UInt8)) : LuciAuthTokenSource :=
  ⟨credHelperPath, args, [], false, []⟩

/-- `String()`. -/
def string (ts : LuciAuthTokenSource) : List UInt8 :=
  if ts.args = [] then str "luci-auth-cloud-platform"
  else if ts.args = scopesContext then str "luci-auth-context"
  else str "luci-auth-custom"

/-- `flags()`: the source's `args`, or Siso's default scopes. -/
def flags (ts : LuciAuthTokenSource) : List (List UInt8) :=
  if ts.args ≠ [] then ts.args
  else [str "--scopes", joinWith [str "https://www.googleapis.com/auth/cloud-platform",
    str "https://www.googleapis.com/auth/userinfo.email"] space]

/-- `fallback()`, as the source it leaves when it returns `true`, and `none` for `false`, which
leaves the source as it was. -/
def fallback (ts : LuciAuthTokenSource) : Option LuciAuthTokenSource :=
  if ts.contextArgs ≠ [] then none
  else if ts.args ≠ [] then none
  else some { ts with args := scopesContext }

/-- The command of one iteration of `Token`'s loop. -/
def tokenArgs (ts : LuciAuthTokenSource) : List (List UInt8) :=
  let args := [ts.luciAuthPath, str "token", str "--json-output", str "-"] ++ ts.flags
  if ts.contextArgs ≠ [] then [ts.luciAuthPath] ++ ts.contextArgs ++ [str "--"] ++ args
  else args

/-- The command of `Email`. -/
def infoArgs (ts : LuciAuthTokenSource) : List (List UInt8) :=
  let args := [ts.luciAuthPath, str "info", str "--json-output", str "-"] ++ ts.flags
  if ts.contextArgs ≠ [] then [ts.luciAuthPath] ++ ts.contextArgs ++ args else args

/-- How many times `fallback` can still return `true`: once for a source with neither context
arguments nor `args`. -/
def fallbacksLeft (ts : LuciAuthTokenSource) : Nat :=
  if ts.contextArgs = [] ∧ ts.args = [] then 1 else 0

/-- How many times `Email` can still run `luci-auth info`. -/
def infoLeft (ts : LuciAuthTokenSource) : Nat := if ts.once then 0 else 1

theorem fallbacksLeft_le_one (ts : LuciAuthTokenSource) : ts.fallbacksLeft ≤ 1 := by
  unfold fallbacksLeft; split <;> omega

theorem fallback_eq_some {ts retry : LuciAuthTokenSource} :
    ts.fallback = some retry ↔
      ts.contextArgs = [] ∧ ts.args = [] ∧ retry = { ts with args := scopesContext } := by
  unfold fallback
  split
  · simp_all
  · split <;> simp_all [eq_comm]

theorem fallbacksLeft_retry {ts retry : LuciAuthTokenSource} (h : ts.fallback = some retry) :
    ts.fallbacksLeft = 1 ∧ retry.fallbacksLeft = 0 := by
  obtain ⟨none, empty, rfl⟩ := fallback_eq_some.1 h
  simp [fallbacksLeft, none, empty, scopesContext]

theorem fallback_of_fallbacksLeft {ts : LuciAuthTokenSource} (h : ts.fallbacksLeft = 0) :
    ts.fallback = none := by
  unfold fallbacksLeft at h
  unfold fallback
  split_ifs at h ⊢ <;> simp_all

end LuciAuthTokenSource

open LuciAuthTokenSource

/-- What `cmd.Run()` gives: its error as text (`none` when the command succeeded), the exit code
and the two outputs. -/
structure Outcome where
  err : Option (List UInt8)
  exitCode : Int
  stdout : List UInt8
  stderr : List UInt8
  deriving DecidableEq, Repr

/-- `luciAuthTokenResponse`. -/
structure TokenResponse where
  token : List UInt8
  expiry : Int
  deriving DecidableEq, Repr

/-- The world the commands run in: what running each command gives, `json.Unmarshal` of the
two responses, and `%q`. -/
structure World where
  run : List (List UInt8) → Outcome
  parseToken : List UInt8 → Except (List UInt8) TokenResponse
  parseInfo : List UInt8 → Option (List UInt8)
  quote : List UInt8 → List UInt8

/-- The `oauth2.Token` that `Token` returns: the access token, `Expiry` in Unix seconds, and the
extras `x-token-source` and `x-token-email`. -/
structure Token where
  accessToken : List UInt8
  expiry : Int
  source : List UInt8
  email : List UInt8
  deriving DecidableEq, Repr

/-- A command the source runs, by the method that runs it. -/
inductive Command
  | token (argv : List (List UInt8))
  | info (argv : List (List UInt8))
  deriving DecidableEq, Repr

/-- Whether a command is a `luci-auth token` run. -/
def Command.isToken : Command → Bool
  | .token _ => true
  | .info _ => false

/-- A call on a source: what it returns, the source after it, and the commands it ran. -/
structure Called (α : Type) where
  result : α
  source : LuciAuthTokenSource
  ran : List Command

/-- The error of a failed `luci-auth token`: its stderr when it exited with 1 saying
`Not logged in.`, and `failed to get token source: %w\nstdout:%s stderr:%s` otherwise. -/
def tokenError (err : List UInt8) (out : Outcome) : List UInt8 :=
  if out.exitCode = 1 ∧ contains out.stderr (str "Not logged in.") then out.stderr
  else str "failed to get token source: " ++ err ++ str "\nstdout:" ++ out.stdout ++
    str " stderr:" ++ out.stderr

section World

variable (w : World)

/-- `Email()`: `once.Do` runs `luci-auth info` unless the source has an email, and keeps the
email it parses; a failed run or parse leaves the email as it was. -/
def email (ts : LuciAuthTokenSource) : Called (List UInt8) :=
  if ts.once then ⟨ts.email, ts, []⟩
  else if ts.email ≠ [] then ⟨ts.email, { ts with once := true }, []⟩
  else
    let argv := ts.infoArgs
    let out := w.run argv
    let email := if out.err = none then (w.parseInfo out.stdout).getD ts.email else ts.email
    ⟨email, { ts with once := true, email := email }, [.info argv]⟩

/-- `Token()`: one iteration of its loop a call, `continue` after a `fallback`. -/
def token (ts : LuciAuthTokenSource) : Called (Except (List UInt8) Token) :=
  let argv := ts.tokenArgs
  let out := w.run argv
  match out.err with
  | some err =>
    match _fell : ts.fallback with
    | some retry =>
      let c := token retry
      { c with ran := .token argv :: c.ran }
    | none => ⟨.error (tokenError err out), ts, [.token argv]⟩
  | none =>
    match w.parseToken out.stdout with
    | .error err =>
      ⟨.error (str "failed to parse response " ++ w.quote out.stdout ++ str ": " ++ err), ts,
        [.token argv]⟩
    | .ok resp =>
      let e := email w ts
      ⟨.ok ⟨resp.token, resp.expiry, ts.string, e.result⟩, e.source, .token argv :: e.ran⟩
termination_by ts.fallbacksLeft
decreasing_by
  obtain ⟨before, after⟩ := fallbacksLeft_retry _fell
  omega

/-- Successive `Token` calls on one source, each in the world it meets. -/
def tokens : List World → LuciAuthTokenSource → Called (List (Except (List UInt8) Token))
  | [], ts => ⟨[], ts, []⟩
  | w :: ws, ts =>
    let c := token w ts
    let rest := tokens ws c.source
    ⟨c.result :: rest.result, rest.source, c.ran ++ rest.ran⟩

end World

/-- The `luci-auth token` runs among the commands. -/
def tokenRuns (ran : List Command) : Nat := ran.countP Command.isToken

/-- The `luci-auth info` runs among the commands. -/
def infoRuns (ran : List Command) : Nat := ran.countP fun c => !c.isToken

@[simp]
theorem tokenRuns_nil : tokenRuns [] = 0 := rfl

@[simp]
theorem infoRuns_nil : infoRuns [] = 0 := rfl

@[simp]
theorem tokenRuns_append (a b : List Command) :
    tokenRuns (a ++ b) = tokenRuns a + tokenRuns b := List.countP_append ..

@[simp]
theorem infoRuns_append (a b : List Command) :
    infoRuns (a ++ b) = infoRuns a + infoRuns b := List.countP_append ..

@[simp]
theorem tokenRuns_cons_token (argv : List (List UInt8)) (ran : List Command) :
    tokenRuns (.token argv :: ran) = tokenRuns ran + 1 := List.countP_cons_of_pos _ _ rfl

@[simp]
theorem infoRuns_cons_token (argv : List (List UInt8)) (ran : List Command) :
    infoRuns (.token argv :: ran) = infoRuns ran :=
  List.countP_cons_of_neg _ _ (by simp [Command.isToken])

/-! ### One call -/

section Calls

variable {w : World} {ts : LuciAuthTokenSource}

@[simp]
theorem email_contextArgs : (email w ts).source.contextArgs = ts.contextArgs := by
  unfold email; split_ifs <;> rfl

@[simp]
theorem email_args : (email w ts).source.args = ts.args := by
  unfold email; split_ifs <;> rfl

@[simp]
theorem email_once : (email w ts).source.once = true := by
  unfold email; split_ifs <;> simp_all

@[simp]
theorem fallbacksLeft_email : (email w ts).source.fallbacksLeft = ts.fallbacksLeft := by
  simp [fallbacksLeft]

theorem email_result : (email w ts).result = (email w ts).source.email := by
  unfold email; split_ifs <;> rfl

theorem email_of_once (h : ts.once = true) : email w ts = ⟨ts.email, ts, []⟩ := by
  simp [email, h]

/-- `Email` runs `luci-auth info` at most once in the life of a source. -/
theorem email_ran : tokenRuns (email w ts).ran = 0 ∧
    infoRuns (email w ts).ran + (email w ts).source.infoLeft ≤ ts.infoLeft := by
  unfold email
  by_cases once : ts.once
  · simp [once]
  · by_cases empty : ts.email = [] <;>
      simp [once, empty, infoLeft, tokenRuns, infoRuns, Command.isToken]

/-- `Email` keeps the email the source had, or takes the answer of the `luci-auth info` it ran,
when that run succeeded and its output parsed. -/
theorem email_answer : (email w ts).source.email = ts.email ∨
    ∃ argv, (email w ts).ran = [.info argv] ∧ (w.run argv).err = none ∧
      w.parseInfo (w.run argv).stdout = some (email w ts).source.email := by
  unfold email
  split_ifs with once known
  · exact .inl rfl
  · exact .inl rfl
  · by_cases ok : (w.run ts.infoArgs).err = none
    · cases answer : w.parseInfo (w.run ts.infoArgs).stdout with
      | none => simp [ok, answer]
      | some e => exact .inr ⟨_, rfl, ok, by simp [ok, answer]⟩
    · simp [ok]

/-- What an iteration of `Token`'s loop that does not `continue` gives: an error with the source
unchanged, or a token named after the source and carrying `Email`'s answer. -/
def Returns (w : World) (ts : LuciAuthTokenSource) (c : Called (Except (List UInt8) Token)) :
    Prop :=
  (∃ err, c = ⟨.error err, ts, [.token ts.tokenArgs]⟩) ∨
  ∃ resp : TokenResponse,
    c = ⟨.ok ⟨resp.token, resp.expiry, ts.string, (email w ts).result⟩,
      (email w ts).source, .token ts.tokenArgs :: (email w ts).ran⟩

/-- One iteration of `Token`'s loop: it continues on the source `fallback` leaves, or returns. -/
theorem token_step (w : World) (ts : LuciAuthTokenSource) :
    (∃ retry, ts.fallback = some retry ∧
      token w ts = { token w retry with ran := .token ts.tokenArgs :: (token w retry).ran }) ∨
    Returns w ts (token w ts) := by
  rw [token]
  split
  · split
    · exact .inl ⟨_, ‹_›, rfl⟩
    · exact .inr (.inl ⟨_, rfl⟩)
  · split
    · exact .inr (.inl ⟨_, rfl⟩)
    · exact .inr (.inr ⟨_, rfl⟩)

/-- The loop runs at most twice: after a `fallback` it returns. -/
theorem token_cases (w : World) (ts : LuciAuthTokenSource) :
    (∃ retry, ts.fallback = some retry ∧ Returns w retry (token w retry) ∧
      token w ts = { token w retry with ran := .token ts.tokenArgs :: (token w retry).ran }) ∨
    Returns w ts (token w ts) := by
  refine (token_step w ts).imp (fun ⟨retry, fell, eq⟩ => ⟨retry, fell, ?_, eq⟩) id
  have settled := fallback_of_fallbacksLeft (fallbacksLeft_retry fell).2
  rcases token_step w retry with ⟨_, again, -⟩ | returns
  · simp [settled] at again
  · exact returns

/-- A returning iteration runs `luci-auth token` once, leaves `fallback` as it was, and runs
`luci-auth info` at most as often as the source still may. -/
theorem Returns.ran {c : Called (Except (List UInt8) Token)} (r : Returns w ts c) :
    tokenRuns c.ran = 1 ∧ c.source.fallbacksLeft = ts.fallbacksLeft ∧
      infoRuns c.ran + c.source.infoLeft ≤ ts.infoLeft := by
  obtain ⟨noToken, info⟩ := @email_ran w ts
  rcases r with ⟨err, rfl⟩ | ⟨resp, rfl⟩
  · simp [infoRuns, Command.isToken]
  · simp [noToken, info]

/-- A returned token carries the email the source keeps, and once `Email` has run, the email
stays. -/
theorem Returns.email {c : Called (Except (List UInt8) Token)} (r : Returns w ts c) :
    (∀ t, c.result = .ok t → t.email = c.source.email ∧ c.source.once = true) ∧
      (ts.once = true → c.source.email = ts.email ∧ c.source.once = true) := by
  rcases r with ⟨err, rfl⟩ | ⟨resp, rfl⟩
  · simp
  · refine ⟨?_, fun once => by simp [email_of_once once, once]⟩
    rintro t ⟨⟩
    exact ⟨email_result, email_once⟩

/-- A returning iteration keeps the source's email, or takes the answer of the `luci-auth info`
it ran. -/
theorem Returns.answer {c : Called (Except (List UInt8) Token)} (r : Returns w ts c) :
    c.source.email = ts.email ∨ ∃ argv, Command.info argv ∈ c.ran ∧ (w.run argv).err = none ∧
      w.parseInfo (w.run argv).stdout = some c.source.email := by
  rcases r with ⟨err, rfl⟩ | ⟨resp, rfl⟩
  · exact .inl rfl
  · rcases @email_answer w ts with kept | ⟨argv, ran, ok, answer⟩
    · exact .inl kept
    · exact .inr ⟨argv, by simp [ran], ok, answer⟩

/-- The step lemma of the run bound: `luci-auth token` runs once a call and once more when
`fallback` says `true`, which it does at most once; `luci-auth info` runs at most once. -/
theorem token_ran (w : World) (ts : LuciAuthTokenSource) :
    tokenRuns (token w ts).ran + (token w ts).source.fallbacksLeft = 1 + ts.fallbacksLeft ∧
      (token w ts).source.fallbacksLeft ≤ ts.fallbacksLeft ∧
      infoRuns (token w ts).ran + (token w ts).source.infoLeft ≤ ts.infoLeft := by
  rcases token_cases w ts with ⟨retry, fell, returns, eq⟩ | returns
  · obtain ⟨once, left, info⟩ := returns.ran
    obtain ⟨before, after⟩ := fallbacksLeft_retry fell
    obtain ⟨-, -, rfl⟩ := fallback_eq_some.1 fell
    have sameInfo : ({ ts with args := scopesContext } : LuciAuthTokenSource).infoLeft =
        ts.infoLeft := rfl
    rw [eq]
    simp only [tokenRuns_cons_token, infoRuns_cons_token]
    omega
  · obtain ⟨once, left, info⟩ := returns.ran
    omega

/-- A call of `Token` runs `luci-auth token` once, or twice when it falls back. -/
theorem token_runs_once_or_twice (w : World) (ts : LuciAuthTokenSource) :
    1 ≤ tokenRuns (token w ts).ran ∧ tokenRuns (token w ts).ran ≤ 2 := by
  obtain ⟨calls, fewer, -⟩ := token_ran w ts
  have := fallbacksLeft_le_one ts
  omega

end Calls

/-! ### A life of calls -/

theorem tokens_ran (ws : List World) (ts : LuciAuthTokenSource) :
    tokenRuns (tokens ws ts).ran + (tokens ws ts).source.fallbacksLeft =
        ws.length + ts.fallbacksLeft ∧
      (tokens ws ts).source.fallbacksLeft ≤ ts.fallbacksLeft ∧
      infoRuns (tokens ws ts).ran + (tokens ws ts).source.infoLeft ≤ ts.infoLeft := by
  induction ws generalizing ts with
  | nil => simp [tokens]
  | cons w ws ih =>
    obtain ⟨calls, fewer, infos⟩ := token_ran w ts
    obtain ⟨restCalls, restFewer, restInfos⟩ := ih (token w ts).source
    simp only [tokens, tokenRuns_append, infoRuns_append, List.length_cons]
    omega

/-- Over its whole life, a source that `AuthOpts` makes runs `luci-auth token` once for each
call of `Token`, and once more at most, only when it has no context arguments; each call, after
any calls before it, runs it once or twice; and the source runs `luci-auth info` at most
once. -/
theorem tokens_runs_bounded (luciAuthPath : List UInt8) (args : List (List UInt8))
    (ws : List World) :
    ws.length ≤ tokenRuns (tokens ws (new luciAuthPath args)).ran ∧
      tokenRuns (tokens ws (new luciAuthPath args)).ran ≤
        ws.length + (if args = [] then 1 else 0) ∧
      (∀ pre w, 1 ≤ tokenRuns (token w (tokens pre (new luciAuthPath args)).source).ran ∧
        tokenRuns (token w (tokens pre (new luciAuthPath args)).source).ran ≤ 2) ∧
      infoRuns (tokens ws (new luciAuthPath args)).ran ≤ 1 := by
  obtain ⟨calls, fewer, infos⟩ := tokens_ran ws (new luciAuthPath args)
  have := fallbacksLeft_le_one (tokens ws (new luciAuthPath args)).source
  have : (new luciAuthPath args).infoLeft = 1 := rfl
  refine ⟨by omega, ?_, fun pre w => token_runs_once_or_twice w _, by omega⟩
  by_cases empty : args = []
  · have : (new luciAuthPath args).fallbacksLeft = 1 := by simp [fallbacksLeft, new, empty]
    rw [if_pos empty]
    omega
  · have : (new luciAuthPath args).fallbacksLeft = 0 := by simp [fallbacksLeft, new, empty]
    rw [if_neg empty]
    omega

end Siso.Cred
