import DockerEngine.Lib.Filepath
import DockerEngine.Lib.Trace

/-!
# Tokens of a registry

All requests to a registry of the first version go through one `authTransport`. It adds an authorization to a request
that has none: the user's name and password to a request that asks for a token, and to any other the token it keeps.
It keeps the token of the last response that had one.

Requests may overlap. A run is a list of events: a request is sent, a request fails, a response arrives. What the
transport does to a request depends on the token it keeps at that time; which request a response answers makes no
difference.

**The law** (`token_requested_iff`): at every point of a run, any request that is sent then gets only a token that was
received in the response to an earlier request which asked for one, exactly if no response brings a token that neither
its own request nor an earlier one has asked for. A token that nobody has asked for is kept like any other
(`token_unrequested`). Nothing is ever added to a redirected request for a location that is not trusted; that holds in
every run (`redirected_unchanged`).

Left out: the table of modified requests, which serves cancelling only, and the bodies.
-/

namespace DockerEngine.Registry.AuthTransport

open Filepath Trace List Option

/-! ## Requests -/

/-- `http.Header`: the values of each field. -/
abbrev Header : Type := Str → List Str

/-- `Header.Get`. -/
def Header.get (h : Header) (field : Str) : Str := (h field).headD []

/-- `Header.Set`. -/
def Header.set (h : Header) (field value : Str) : Header := Function.update h field [value]

/-- The fields that the transport looks at. -/
def referer : Str := "Referer".toList

/-- The field with the credentials. -/
def authorization : Str := "Authorization".toList

/-- The field that asks for a token, and that gives one. -/
def dockerToken : Str := "X-Docker-Token".toList

/-- `http.Request`. -/
structure Request where
  header : Header
  scheme : Str
  host : Str

section

variable (req : Request) (setup : Setup) (tr : Transport)

/-- `trustedLocation`. -/
def trustedLocation : Bool :=
  let hostname := req.host.takeWhile fun c => c ≠ ':'
  if req.scheme ≠ "https".toList then false
  else ["docker.com".toList, "docker.io".toList].any fun trusted =>
    hostname == trusted || hasSuffix hostname ('.' :: trusted)

/-- `AuthConfig`. -/
structure AuthConfig where
  username : Str
  password : Str
  deriving DecidableEq, Repr

/-- What the transport is made with: the credentials, whether they are always sent, and the encoding of the
credentials in a header. -/
structure Setup where
  authConfig : Option AuthConfig
  alwaysSetBasicAuth : Bool
  encode : AuthConfig → Str

/-- `SetBasicAuth`. -/
def Request.setBasicAuth (a : AuthConfig) : Request :=
  { req with header := req.header.set authorization ("Basic ".toList ++ setup.encode a) }

/-- The value of a header with tokens. -/
def tokenValue (token : List Str) : Str := "Token ".toList ++ [','].intercalate token

/-! ## Sending -/

/-- A redirected request for a location that is not trusted. The client of the standard library adds the field that
tells a redirection. -/
def Request.redirected : Bool := req.header.get referer ≠ [] && !trustedLocation req

/-- The request asks for a token. -/
def Request.asks : Bool := req.header.get dockerToken = "true".toList

/-- The credentials that a request for a token is given. -/
def Setup.credentials : Option AuthConfig := setup.authConfig.filter fun a => a.username ≠ []

/-- The request that `RoundTrip` sends on. There is none if credentials are missing that are always to be sent. -/
def modified (token : List Str) (orig : Request) : Option Request :=
  if orig.redirected then some orig
  else if setup.alwaysSetBasicAuth then setup.authConfig.map (orig.setBasicAuth setup)
  else if orig.header.get authorization ≠ [] then some orig
  else
    match if orig.asks then setup.credentials else none with
    | some a => some (orig.setBasicAuth setup a)
    | none =>
      if token ≠ [] then some { orig with header := orig.header.set authorization (tokenValue token) }
      else some orig

/-- `RoundTrip` looks at the response for a token. -/
def Request.watched (orig : Request) : Bool := !orig.redirected && !setup.alwaysSetBasicAuth

/-! ## Runs -/

/-- The transport: the token it keeps, the requests so far, and the responses so far, each with the number of its
request and its tokens. -/
structure Transport where
  token : List Str
  requests : List Request
  responses : List (Nat × List Str)

/-- `AuthTransport`. -/
def authTransport : Transport := ⟨[], [], []⟩

/-- What happens. -/
inductive Event where
  | send (orig : Request)
  | fail (request : Nat)
  | receive (request : Nat) (tokens : List Str)

/-- The transport after an event. -/
def step : Event → Option Transport
  | .send orig => some { tr with requests := tr.requests ++ [orig] }
  | .fail _ => some tr
  | .receive i tokens =>
    match tr.requests[i]? with
    | none => none
    | some orig =>
      some { tr with
        token := if orig.watched setup && tokens ≠ [] then tokens else tr.token
        responses := tr.responses ++ [(i, tokens)] }

/-- The value was received as a token, in the response to a request that asked for one. -/
def Requested (value : Str) : Prop :=
  ∃ r ∈ tr.responses, r.2 ≠ [] ∧ value = tokenValue r.2 ∧
    ∃ orig, tr.requests[r.1]? = some orig ∧ orig.asks = true

/-- What is to hold of a request that is sent: a token that the transport adds was requested, and nothing is added to
a redirected request for a location that is not trusted. -/
def Faithful : Event → Prop
  | .send orig => ∀ req, modified setup tr.token orig = some req →
      (∀ value, "Token ".toList <+: value → orig.header authorization ≠ [value] →
        req.header authorization = [value] → Requested tr value) ∧
      (orig.redirected = true → req = orig)
  | _ => True

/-- A response has a token only if its request has asked for one, or if the token was received before by a request
that did. Responses that the transport does not look at are free. -/
def Solicited : Event → Prop
  | .receive i tokens => ∀ orig, tr.requests[i]? = some orig → orig.watched setup = true → tokens ≠ [] →
      orig.asks = true ∨ Requested tr (tokenValue tokens)
  | _ => True

/-! ## Provenance -/

/-- The token that is kept was requested. -/
def KeptRequested : Prop := tr.token ≠ [] → Requested tr (tokenValue tr.token)

end

variable {tr tr' : Transport}

/-- What was requested stays so. -/
theorem Requested.mono {value : Str} (h : Requested tr value)
    (hrequests : tr.requests <+: tr'.requests) (hresponses : tr.responses ⊆ tr'.responses) :
    Requested tr' value := by
  obtain ⟨r, hr, hne, hvalue, orig, horig, hasks⟩ := h
  obtain ⟨more, hmore⟩ := hrequests
  refine ⟨r, hresponses hr, hne, hvalue, orig, ?_, hasks⟩
  rw [← hmore, List.getElem?_append_left (List.getElem?_eq_some_iff.mp horig).1]
  exact horig

variable {setup : Setup} {e : Event}

/-- **One event** keeps the provenance of the token, if its token was asked for. -/
theorem step_keptRequested (h : KeptRequested tr)
    (hgood : Solicited setup tr e) (hstep : step setup tr e = some tr') : KeptRequested tr' := by
  cases e with
  | send orig =>
    cases hstep
    exact fun htoken => (h htoken).mono (prefix_append _ _) (List.Subset.refl _)
  | fail i =>
    cases hstep
    exact h
  | receive i tokens =>
    rw [step] at hstep
    cases horig : tr.requests[i]? with
    | none =>
      rw [horig] at hstep
      cases hstep
    | some orig =>
      simp only [horig, some.injEq] at hstep
      subst hstep
      intro htoken
      by_cases hnew : (orig.watched setup && decide (tokens ≠ []))
      · simp only [hnew, if_true] at htoken ⊢
        rw [Bool.and_eq_true, decide_eq_true_eq] at hnew
        rcases hgood orig horig hnew.1 hnew.2 with hasks | hbefore
        · exact ⟨(i, tokens), by simp, hnew.2, rfl, orig, horig, hasks⟩
        · exact hbefore.mono prefix_rfl (subset_append_left _ _)
      · simp only [hnew, if_false, Bool.false_eq_true] at htoken ⊢
        exact (h htoken).mono prefix_rfl (subset_append_left _ _)

theorem basic_not_token (rest : Str) : ¬ "Token ".toList <+: "Basic ".toList ++ rest := by
  intro h
  have hfirst := h.getElem (i := 0) (by decide)
  simp at hfirst

/-- What the transport may add to a request, if it does not always send the credentials. -/
theorem modified_cases (hsetup : setup.alwaysSetBasicAuth = false) {token : List Str}
    {orig req : Request} (h : modified setup token orig = some req) :
    req = orig ∨ (orig.redirected = false ∧ ∃ a, req = orig.setBasicAuth setup a) ∨
      (orig.redirected = false ∧ token ≠ [] ∧
        req = { orig with header := orig.header.set authorization (tokenValue token) }) := by
  rw [modified] at h
  split at h
  next => exact .inl (some.inj h).symm
  next hredirected =>
  rw [Bool.not_eq_true] at hredirected
  rw [hsetup, if_neg (by simp)] at h
  split at h
  next => exact .inl (some.inj h).symm
  split at h
  next a _ => exact .inr (.inl ⟨hredirected, a, (some.inj h).symm⟩)
  split at h
  next htoken => exact .inr (.inr ⟨hredirected, htoken, (some.inj h).symm⟩)
  next => exact .inl (some.inj h).symm

theorem faithful_of_kept (hsetup : setup.alwaysSetBasicAuth = false)
    (h : KeptRequested tr) : Faithful setup tr e := by
  cases e with
  | send orig =>
    intro req hreq
    obtain rfl | ⟨hnot, a, rfl⟩ | ⟨hnot, htoken, rfl⟩ := modified_cases hsetup hreq
    · exact ⟨fun value _ hne heq => absurd heq hne, fun _ => rfl⟩
    · refine ⟨fun value hvalue _ heq => ?_, fun hred => by simp [hnot] at hred⟩
      simp only [Request.setBasicAuth, Header.set, Function.update_self, cons.injEq, and_true] at heq
      exact absurd (heq ▸ hvalue) (basic_not_token _)
    · refine ⟨fun value _ _ heq => ?_, fun hred => by simp [hnot] at hred⟩
      simp only [Header.set, Function.update_self, cons.injEq, and_true] at heq
      exact heq ▸ h htoken
  | fail i => trivial
  | receive i tokens => trivial

/-- Nothing is added to a redirected request for a location that is not trusted, whatever the token is. -/
theorem redirected_unchanged (setup : Setup) (token : List Str) {orig req : Request}
    (hredirected : orig.redirected) (h : modified setup token orig = some req) : req = orig := by
  rw [modified, if_pos hredirected] at h
  exact (some.inj h).symm

/-- A request without any header. -/
def plainRequest : Request := ⟨fun _ => [], "https".toList, "docker.io".toList⟩

/-- A plain request shows the token that is kept. -/
theorem modified_plain (hsetup : setup.alwaysSetBasicAuth = false) {token : List Str} (htoken : token ≠ []) :
    modified setup token plainRequest =
      some { plainRequest with header := plainRequest.header.set authorization (tokenValue token) } := by
  have hredirected : plainRequest.redirected = false := by decide
  have hnone : plainRequest.header.get authorization = [] := rfl
  have hasks : plainRequest.asks = false := by decide
  simp [modified, hredirected, hsetup, hnone, hasks, htoken]

/-- If all requests would be treated faithfully after an event, its token was asked for. -/
theorem solicited_of_faithful (hsetup : setup.alwaysSetBasicAuth = false) (hstep : step setup tr e = some tr')
    (h : Faithful setup tr' (.send plainRequest)) :
    Solicited setup tr e := by
  cases e with
  | send orig => trivial
  | fail i => trivial
  | receive i tokens =>
    intro orig horig hwatched htokens
    simp only [step, horig, hwatched, some.injEq] at hstep
    subst hstep
    have hkept : (if (true && decide (tokens ≠ [])) = true then tokens else tr.token) = tokens := by
      simp [htokens]
    rw [Faithful, hkept] at h
    obtain ⟨r, hr, hne, hvalue, o, ho, hasks⟩ :=
      (h _ (modified_plain hsetup htokens)).1 (tokenValue tokens) (prefix_append _ _) (by simp [plainRequest])
        (by simp [Header.set])
    rcases mem_append.mp hr with hr | hr
    · exact .inr ⟨r, hr, hne, hvalue, o, ho, hasks⟩
    · rw [mem_singleton.mp hr, horig] at ho
      cases ho
      exact .inl hasks

/-- **Tokens that are sent were requested**: in every state of a run every request would be treated faithfully,
exactly if each token that comes was asked for. -/
theorem token_requested_iff (setup : Setup) (hsetup : setup.alwaysSetBasicAuth = false) (events : List Event) :
    (∀ pre tr, pre <+: events → exec (step setup) authTransport pre = some tr →
      ∀ orig, Faithful setup tr (.send orig)) ↔
    Along (step setup) (Solicited setup) authTransport events := by
  constructor
  · generalize authTransport = start
    intro h
    induction events generalizing start with
    | nil => trivial
    | cons e events ih =>
      refine along_cons_iff.mpr fun next hstep => ?_
      have hone : [e] <+: e :: events := ⟨events, rfl⟩
      have hnext : exec (step setup) start [e] = some next := exec_cons hstep
      refine ⟨solicited_of_faithful hsetup hstep (h [e] next hone hnext plainRequest), ih next ?_⟩
      intro pre tr hpre hexec
      exact h (e :: pre) tr (cons_prefix_cons.mpr ⟨rfl, hpre⟩) ((exec_cons hstep).trans hexec)
  · rintro h pre tr ⟨post, rfl⟩ hexec orig
    refine faithful_of_kept hsetup ?_
    exact exec_inv (I := KeptRequested) (fun _ _ _ => step_keptRequested) (absurd rfl)
      (along_of_append h) hexec

/-- The credentials of a user. -/
def userSetup : Setup := ⟨some ⟨"user".toList, "pass".toList⟩, false, fun a => a.username ++ ':' :: a.password⟩

/-- A request that asks for a token. -/
def askingRequest : Request := { plainRequest with header := plainRequest.header.set dockerToken "true".toList }

/-- A token that was asked for is used. -/
theorem token_requested_once :
    Faithful userSetup ⟨["t".toList], [askingRequest], [(0, ["t".toList])]⟩ (.send plainRequest) :=
  (token_requested_iff userSetup rfl [.send askingRequest, .receive 0 ["t".toList]]).mpr
    ⟨trivial, fun orig horig _ _ => .inl (by cases horig; decide), trivial⟩
    [.send askingRequest, .receive 0 ["t".toList]] _ prefix_rfl rfl plainRequest

/-- A token that nobody has asked for is sent with the next request. -/
theorem token_unrequested :
    exec (step userSetup) authTransport [.send plainRequest, .receive 0 ["t".toList]] =
        some ⟨["t".toList], [plainRequest], [(0, ["t".toList])]⟩ ∧
      (modified userSetup ["t".toList] plainRequest).map (fun req => req.header authorization) =
        some ["Token t".toList] ∧
      ¬ Faithful userSetup ⟨["t".toList], [plainRequest], [(0, ["t".toList])]⟩ (.send plainRequest) := by
  refine ⟨rfl, by decide, fun h => ?_⟩
  have hmodified : modified userSetup ["t".toList] plainRequest = some _ := modified_plain rfl (by decide)
  obtain ⟨r, hr, -, -, o, ho, hasks⟩ := (h _ hmodified).1 (tokenValue ["t".toList]) (prefix_append _ _)
    (by simp [plainRequest]) (by simp [Header.set])
  rw [mem_singleton.mp hr] at ho
  cases ho
  exact absurd hasks (by decide)

end DockerEngine.Registry.AuthTransport
