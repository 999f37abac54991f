import Mathlib.Data.List.Dedup
import Mathlib.Data.List.Infix
import Siso.Go.Strings

/-!
# The credential helper's cache

`credHelper.get` keeps one credential per endpoint, every `https://` endpoint of
`.googleapis.com/` sharing the key `https://*.googleapis.com/`.  A call reuses the credential of
its key while its expiry is set and not passed; otherwise it runs the helper and keeps the
credential built from the helper's answer: the headers, their names lowered and their values
joined by commas, and the expiry the helper gives, or an hour after it answered.  When the
helper fails, or its expiry does not parse, the call returns the credential it holds with the
error and keeps it.

`h.mu` guards the map and `cce.mu` is held from the check to the update of an entry, so calls
on one key follow one another, and calls on other keys touch other entries: a `get` is one step
on the cache.  The helper's answers and the times `time.Now()` gives are the inputs of a call;
`strings.ToLower` and `time.Parse(time.RFC3339, _)` are parameters, and a `time.Time` is its
nanoseconds from the zero `Time`, which `IsZero` tests.

The cache is a memo of the last credential the helper gave for each key (`memoGet`): the entry
that `get` makes for a key before running the helper stays zero when the helper fails, and a
zero credential is always stale, so it answers as no entry does.  `get` refines the memo over
every run.  The headers of a credential do not depend on the order `range` visits the
helper's headers unless two names with values differ only in case; then the one visited last is
kept.
-/

namespace Siso.Cred

open Go

/-- `strings.Contains(s, substr)`. -/
def contains (s sub : List UInt8) : Bool := decide (sub <:+: s)

/-- `','`. -/
def comma : UInt8 := 44

/-- `"https://*.googleapis.com/"`. -/
def googleapisEndpoint : List UInt8 := str "https://*.googleapis.com/"

/-- The endpoint `get` keeps a credential under. -/
def cacheKey (endpoint : List UInt8) : List UInt8 :=
  if hasPrefix endpoint (str "https://") && contains endpoint (str ".googleapis.com/") then
    googleapisEndpoint
  else endpoint

/-- `time.Hour`, in nanoseconds. -/
def hour : Int := 3600 * 1000000000

/-- `credHelperResp`: `Headers` in the order `range` visits them, `Expires`, and the helper's
stdout. -/
structure Resp where
  headers : List (List UInt8 × List (List UInt8))
  expires : List UInt8
  stdout : List UInt8
  deriving DecidableEq, Repr

/-- `credHelperPerRPCCredentials`: the map of headers, the expiry, and the helper's stdout. -/
structure PerRPCCredentials where
  headers : List UInt8 → Option (List UInt8)
  expires : Int
  stdout : List UInt8

/-- `credHelperPerRPCCredentials{}`, the credential of a new cache entry. -/
def PerRPCCredentials.zero : PerRPCCredentials := ⟨fun _ => none, 0, []⟩

/-- The errors of `get`: `credhelper failed: %w`, and `failed to parse credhelper expires %q`. -/
inductive GetError (ε : Type)
  | helperFailed (e : ε)
  | badExpires (expires : List UInt8)
  deriving DecidableEq, Repr

/-- What a call of `get` meets: the endpoint, `time.Now()` at the check and after the helper
answered, and the helper's answer if it runs. -/
structure Call (ε : Type) where
  endpoint : List UInt8
  now : Int
  done : Int
  reply : Except ε Resp

/-- The loop `for k, v := range resp.Headers { if len(v) == 0 { continue };
headers[strings.ToLower(k)] = strings.Join(v, ",") }` into a new map. -/
def headersOf (toLower : List UInt8 → List UInt8) (hs : List (List UInt8 × List (List UInt8))) :
    List UInt8 → Option (List UInt8) :=
  hs.foldl (fun m kv => if kv.2 = [] then m
    else fun name => if name = toLower kv.1 then some (joinWith kv.2 comma) else m name)
    fun _ => none

/-- `strings.LastIndex(s, string(c))` for a one-byte `c`, `none` for `-1`. -/
def lastIndex : List UInt8 → UInt8 → Option Nat
  | [], _ => none
  | x :: xs, c => ((lastIndex xs c).map (· + 1)).or (if x = c then some 0 else none)

/-- `addMethod(ctx, uri)`, with `method` the `Method` of the request info in `ctx`, if any. -/
def addMethod (method : Option (List UInt8)) (uri : List UInt8) : List UInt8 :=
  method.elim uri fun m =>
    (lastIndex m slash).elim uri fun pos =>
      if hasSuffix uri (m.take pos) then uri ++ m.drop pos else uri

/-- `strings.ToLower` on ASCII text. -/
def asciiLower (s : List UInt8) : List UInt8 := s.map fun c => if 65 ≤ c ∧ c ≤ 90 then c + 32 else c

/-! ## The headers of a credential -/

/-- Two names that differ only in case: the value kept is that of the one `range` visits last. -/
example : headersOf asciiLower [(str "Authorization", [str "a"]), (str "authorization", [str "b"])]
      (str "authorization") = some (str "b") ∧
    headersOf asciiLower [(str "authorization", [str "b"]), (str "Authorization", [str "a"])]
      (str "authorization") = some (str "a") := by decide

/-- The helper's answer with an authorization and a second header. -/
def twoHeaders : List (List UInt8 × List (List UInt8)) :=
  [(str "Authorization", [str "Bearer t"]), (str "X-Goog-User-Project", [str "p", str "q"])]

/-- The cache `h.cache`: the entry of each key, `none` where the map has none. -/
abbrev Cache := List UInt8 → Option PerRPCCredentials

/-- `m[key] = v`. -/
def Cache.set (m : Cache) (key : List UInt8) (v : PerRPCCredentials) : Cache :=
  fun k => if k = key then some v else m k

/-- `cce.cred.expires.IsZero() || cce.cred.expires.Before(time.Now())`. -/
def stale (cred : PerRPCCredentials) (now : Int) : Bool := cred.expires = 0 || cred.expires < now

/-- What `get` returns: the credential, the error, and whether it ran the helper. -/
abbrev Answer (ε : Type) := PerRPCCredentials × Option (GetError ε) × Bool

section Get

variable {ε : Type} (toLower : List UInt8 → List UInt8) (parseTime : List UInt8 → Option Int)

/-- The part of `get` that runs the helper and builds the credential from its answer. -/
def refresh (c : Call ε) : Except (GetError ε) PerRPCCredentials := do
  let resp ← c.reply.mapError GetError.helperFailed
  let expires ← if resp.expires = [] then pure (c.done + hour)
    else (parseTime resp.expires).elim (throw (.badExpires resp.expires)) pure
  pure ⟨headersOf toLower resp.headers, expires, resp.stdout⟩

/-- `h.get(ctx, endpoint)`: what it returns, and the cache after. -/
def get (cache : Cache) (c : Call ε) : Answer ε × Cache :=
  let key := cacheKey c.endpoint
  let entry := (cache key).getD .zero
  let cache := cache.set key entry
  if stale entry c.now then
    match refresh toLower parseTime c with
    | .error e => ((entry, some e, true), cache)
    | .ok cred => ((cred, none, true), cache.set key cred)
  else ((entry, none, false), cache)

/-- The calls of a run one after the other from `cache`: their answers, and the cache after. -/
def getAll : Cache → List (Call ε) → List (Answer ε) × Cache
  | cache, [] => ([], cache)
  | cache, c :: cs =>
    let r := getAll (get toLower parseTime cache c).2 cs
    ((get toLower parseTime cache c).1 :: r.1, r.2)

/-! ## What the cache is for -/

/-- The credential the helper last gave for each key. -/
abbrev Memo := List UInt8 → Option PerRPCCredentials

/-- The memo's answer: the last credential of the key while its expiry is set and not passed;
otherwise the helper's, remembered, or on a failure the last credential, the zero one if none,
with the error. -/
def memoGet (memo : Memo) (c : Call ε) : Answer ε × Memo :=
  let key := cacheKey c.endpoint
  let last := (memo key).getD .zero
  if stale last c.now then
    match refresh toLower parseTime c with
    | .error e => ((last, some e, true), memo)
    | .ok cred => ((cred, none, true), Cache.set memo key cred)
  else ((last, none, false), memo)

/-- The memo over a run of calls. -/
def memoGetAll : Memo → List (Call ε) → List (Answer ε) × Memo
  | memo, [] => ([], memo)
  | memo, c :: cs =>
    let r := memoGetAll (memoGet toLower parseTime memo c).2 cs
    ((memoGet toLower parseTime memo c).1 :: r.1, r.2)

/-- The cache holds the memo's credentials, and a zero one where the memo has none. -/
def Refines (cache : Cache) (memo : Memo) : Prop :=
  ∀ k, cache k = memo k ∨ (memo k = none ∧ cache k = some .zero)

theorem Refines.getD {cache : Cache} {memo : Memo} (r : Refines cache memo) (k : List UInt8) :
    (cache k).getD .zero = (memo k).getD .zero := by
  rcases r k with same | ⟨none, zero⟩
  · rw [same]
  · rw [none, zero]; rfl

theorem Refines.set {cache : Cache} {memo : Memo} (r : Refines cache memo) (key : List UInt8)
    (cred : PerRPCCredentials) : Refines (cache.set key cred) (Cache.set memo key cred) :=
  fun k => by
  by_cases hit : k = key
  · simp [Cache.set, hit]
  · simpa [Cache.set, hit] using r k

theorem Refines.keep {cache : Cache} {memo : Memo} (r : Refines cache memo) (key : List UInt8) :
    Refines (cache.set key ((cache key).getD .zero)) memo := fun k => by
  by_cases hit : k = key
  · subst hit
    rcases r k with same | ⟨none, zero⟩
    · cases h : memo k <;> simp [Cache.set, same, h]
    · simp [Cache.set, none, zero]
  · simpa [Cache.set, hit] using r k

/-- One `get` answers as the memo does, and keeps the cache a refinement of the memo. -/
theorem get_refines {cache : Cache} {memo : Memo} (r : Refines cache memo) (c : Call ε) :
    (get toLower parseTime cache c).1 = (memoGet toLower parseTime memo c).1 ∧
      Refines (get toLower parseTime cache c).2 (memoGet toLower parseTime memo c).2 := by
  have entry := r.getD (cacheKey c.endpoint)
  have kept := r.keep (cacheKey c.endpoint)
  rw [entry] at kept
  simp only [get, memoGet, entry]
  split
  · split
    · exact ⟨rfl, kept⟩
    · exact ⟨rfl, kept.set _ _⟩
  · exact ⟨rfl, kept⟩

/-- Over every run, `get` answers as the memo does. -/
theorem getAll_refines {cache : Cache} {memo : Memo} (r : Refines cache memo) :
    ∀ cs : List (Call ε), (getAll toLower parseTime cache cs).1 =
      (memoGetAll toLower parseTime memo cs).1
  | [] => rfl
  | c :: cs => by
    obtain ⟨answer, r'⟩ := get_refines toLower parseTime r c
    simp only [getAll, memoGetAll, answer, getAll_refines r' cs]

/-- `h.GetRequestMetadata(ctx, uri...)`: the headers or the error, and the cache after. -/
def getRequestMetadata (cache : Cache) (method : Option (List UInt8)) (uris : List (List UInt8))
    (now done : Int) (reply : Except ε Resp) :
    Except (GetError ε) (List UInt8 → Option (List UInt8)) × Cache :=
  let endpoint := uris.head?.elim googleapisEndpoint (addMethod method)
  let r := get toLower parseTime cache ⟨endpoint, now, done, reply⟩
  (r.1.2.1.elim (.ok r.1.1.headers) .error, r.2)

/-! ## Reuse -/

/-- A call changes no entry of another key. -/
theorem get_other {cache : Cache} {c : Call ε} {k : List UInt8} (other : cacheKey c.endpoint ≠ k) :
    (get toLower parseTime cache c).2 k = cache k := by
  have keep : (cache.set (cacheKey c.endpoint) ((cache (cacheKey c.endpoint)).getD .zero)) k =
      cache k := by simp [Cache.set, Ne.symm other]
  simp only [get]
  split
  · split
    · exact keep
    · simp [Cache.set, Ne.symm other, keep]
  · exact keep

/-- A call whose key holds a credential that is not stale returns it, without the helper. -/
theorem get_fresh {cache : Cache} {c : Call ε} {cred : PerRPCCredentials}
    (held : cache (cacheKey c.endpoint) = some cred) (fresh : stale cred c.now = false) :
    (get toLower parseTime cache c).1 = (cred, none, false) ∧
      (get toLower parseTime cache c).2 (cacheKey c.endpoint) = some cred := by
  simp [get, held, fresh, Cache.set]

/-- A call that ran the helper without an error keeps what it returns. -/
theorem get_keeps {cache : Cache} {c : Call ε} {cred : PerRPCCredentials}
    (ran : (get toLower parseTime cache c).1 = (cred, none, true)) :
    (get toLower parseTime cache c).2 (cacheKey c.endpoint) = some cred := by
  revert ran
  simp only [get]
  split
  · split
    · simp
    · intro same
      simp_all [Cache.set]
  · simp

/-- While the credential held for a key has a set expiry that has not passed, each call for the
key returns it without the helper, and calls for other keys leave it. -/
theorem getAll_reuses {key : List UInt8} {cred : PerRPCCredentials} (set : cred.expires ≠ 0) :
    ∀ (cache : Cache) (cs : List (Call ε)), cache key = some cred →
      (∀ c ∈ cs, cacheKey c.endpoint = key → c.now ≤ cred.expires) →
      List.Forall₂ (fun c a => cacheKey c.endpoint = key → a = (cred, none, false)) cs
        (getAll toLower parseTime cache cs).1
  | _, [], _, _ => .nil
  | cache, c :: cs, held, within => by
    have rest : (get toLower parseTime cache c).2 key = some cred := by
      by_cases same : cacheKey c.endpoint = key
      · subst same
        exact (get_fresh toLower parseTime held
          (by simp [stale, set, within c (.head _) rfl])).2
      · rw [get_other toLower parseTime same, held]
    refine .cons (fun same => ?_)
      (getAll_reuses set _ cs rest fun c' mem => within c' (.tail _ mem))
    subst same
    exact (get_fresh toLower parseTime held (by simp [stale, set, within c (.head _) rfl])).1

/-- Once a call has run the helper for a key and got a credential with a set expiry, every later
call for that key up to the expiry returns that credential without running the helper, whatever
calls for other keys come between. -/
theorem get_reuses_until_expiry {cache : Cache} {c : Call ε} {cred : PerRPCCredentials}
    (ran : (get toLower parseTime cache c).1 = (cred, none, true)) (set : cred.expires ≠ 0)
    (cs : List (Call ε))
    (within : ∀ c' ∈ cs, cacheKey c'.endpoint = cacheKey c.endpoint → c'.now ≤ cred.expires) :
    List.Forall₂ (fun c' a => cacheKey c'.endpoint = cacheKey c.endpoint → a = (cred, none, false))
      cs (getAll toLower parseTime (get toLower parseTime cache c).2 cs).1 :=
  getAll_reuses toLower parseTime set _ cs (get_keeps toLower parseTime ran) within

/-- From an empty cache, over every run, with any answers of the helper and any times, `get`
answers each call as the memo of the last credential the helper gave for each key does. -/
theorem get_answers_as_memo (cs : List (Call ε)) :
    (getAll toLower parseTime (fun _ => none) cs).1 =
      (memoGetAll toLower parseTime (fun _ => none) cs).1 :=
  getAll_refines toLower parseTime (fun _ => .inl rfl) cs

/-! ## The endpoints of Google APIs -/

theorem addMethod_append (method : Option (List UInt8)) (uri : List UInt8) :
    ∃ t, addMethod method uri = uri ++ t := by
  unfold addMethod
  rcases method with _ | m
  · exact ⟨[], by simp [Option.elim]⟩
  · rcases found : lastIndex m slash with _ | pos
    · exact ⟨[], by simp [Option.elim, found]⟩
    · by_cases suffix : hasSuffix uri (m.take pos) = true
      · exact ⟨m.drop pos, by simp [Option.elim, found, suffix]⟩
      · exact ⟨[], by simp [Option.elim, found, suffix]⟩

theorem cacheKey_google_append {uri : List UInt8}
    (google : (hasPrefix uri (str "https://") && contains uri (str ".googleapis.com/")) = true)
    (t : List UInt8) : cacheKey (uri ++ t) = googleapisEndpoint := by
  simp only [Bool.and_eq_true, hasPrefix_iff, contains, decide_eq_true_eq] at google
  have longer : uri <+: uri ++ t := List.prefix_append uri t
  simp [cacheKey, hasPrefix_iff, contains, google.1.trans longer,
    google.2.trans longer.isInfix]

/-- A call's answer and cache depend on its endpoint only through the key. -/
theorem get_endpoint {cache : Cache} (c c' : Call ε)
    (key : cacheKey c.endpoint = cacheKey c'.endpoint)
    (now : c.now = c'.now) (done : c.done = c'.done) (reply : c.reply = c'.reply) :
    get toLower parseTime cache c = get toLower parseTime cache c' := by
  simp only [get, refresh, key, now, done, reply]

/-- Every request to a service of googleapis.com, whatever its gRPC method, is answered as a
request without a URI, from the one credential under `https://*.googleapis.com/`. -/
theorem getRequestMetadata_googleapis (cache : Cache) (method : Option (List UInt8))
    {uri : List UInt8} (rest : List (List UInt8))
    (google : (hasPrefix uri (str "https://") && contains uri (str ".googleapis.com/")) = true)
    (now done : Int) (reply : Except ε Resp) :
    getRequestMetadata toLower parseTime cache method (uri :: rest) now done reply =
      getRequestMetadata toLower parseTime cache none [] now done reply := by
  obtain ⟨t, added⟩ := addMethod_append method uri
  have key : cacheKey (addMethod method uri) = cacheKey googleapisEndpoint := by
    rw [added, cacheKey_google_append google]
    rfl
  simp only [getRequestMetadata, List.head?_cons, List.head?_nil, Option.elim,
    get_endpoint toLower parseTime ⟨addMethod method uri, now, done, reply⟩
      ⟨googleapisEndpoint, now, done, reply⟩ key rfl rfl rfl]

end Get

/-- A call for Google RBE at time 0, whose helper answers `twoHeaders` at time 5. -/
def rbeCall : Call Unit := ⟨str "https://remotebuildexecution.googleapis.com/", 0, 5,
  .ok ⟨twoHeaders, [], []⟩⟩

/-- A call for the CAS of Google APIs at time 10, whose helper would fail. -/
def casCall : Call Unit := ⟨str "https://cas.googleapis.com/", 10, 10, .error ()⟩

theorem get_reuses_until_expiry_rbe :
    ((get asciiLower (fun _ => none) (fun _ => none) rbeCall).1 =
        (⟨headersOf asciiLower twoHeaders, 5 + hour, []⟩, none, true) ∧
      (5 + hour ≠ 0) ∧
      ∀ c' ∈ [casCall], cacheKey c'.endpoint = cacheKey rbeCall.endpoint → c'.now ≤ 5 + hour) ∧
    List.Forall₂ (fun c' a => cacheKey c'.endpoint = cacheKey rbeCall.endpoint →
        a = (⟨headersOf asciiLower twoHeaders, 5 + hour, []⟩, none, false))
      [casCall] (getAll asciiLower (fun _ => none)
        (get asciiLower (fun _ => none) (fun _ => none) rbeCall).2 [casCall]).1 :=
  have within : ∀ c' ∈ [casCall], cacheKey c'.endpoint = cacheKey rbeCall.endpoint →
      c'.now ≤ 5 + hour := fun c' mem _ => by rw [List.mem_singleton.1 mem]; decide
  ⟨⟨rfl, by decide, within⟩,
    get_reuses_until_expiry asciiLower (fun _ => none) rfl (by decide) [casCall] within⟩

/-- The URI gRPC gives for the execution service of Google RBE. -/
def rbeExecution : List UInt8 :=
  str "https://remotebuildexecution.googleapis.com/build.bazel.remote.execution.v2.Execution"

theorem getRequestMetadata_googleapis_rbe :
    (hasPrefix rbeExecution (str "https://") && contains rbeExecution (str ".googleapis.com/")) =
        true ∧
      getRequestMetadata asciiLower (fun _ => none) (fun _ => none)
          (some (str "/build.bazel.remote.execution.v2.Execution/Execute")) [rbeExecution] 0 5
          (.ok ⟨twoHeaders, [], []⟩ : Except Unit Resp) =
        getRequestMetadata asciiLower (fun _ => none) (fun _ => none) none [] 0 5
          (.ok ⟨twoHeaders, [], []⟩ : Except Unit Resp) :=
  ⟨by decide, getRequestMetadata_googleapis asciiLower (fun _ => none) (fun _ => none) _ []
    (by decide) 0 5 _⟩

end Siso.Cred
