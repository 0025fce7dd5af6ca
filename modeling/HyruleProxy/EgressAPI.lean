import HyruleProxy.Bearer
import HyruleProxy.JsonStable
import HyruleProxy.RequestSize
import HyruleProxy.Runs
import HyruleProxy.ServeMux

namespace HyruleProxy
set_option autoImplicit true

namespace Egress

section Modes

structure ModeInfo where
  available : Bool
  reason : Option GoString
  deriving DecidableEq

/-- What the server reads of its configuration beside the limits. -/
structure Settings where
  authToken : GoString
  torSOCKSAddr : GoString
  i2pHTTPProxy : GoString
  yggdrasil : Bool

/-- The host as a request finds it: the TCP addresses that accept a connection, and whether an
interface that is up has a Yggdrasil address. -/
structure Host where
  tcpAvailable : GoString → Bool
  hasYggdrasilAddress : Bool

def modeInfo (r : Bool × GoString) : ModeInfo := ⟨r.1, if r.2 = [] then none else some r.2⟩

def torAvailable (c : Settings) (h : Host) : Bool × GoString :=
  if h.tcpAvailable c.torSOCKSAddr then (true, [])
  else (false, lit "tor SOCKS listener unavailable")

def i2pAvailable (c : Settings) (h : Host) : Bool × GoString :=
  match urlParse c.i2pHTTPProxy with
  | .error _ => (false, lit "invalid i2p proxy URL")
  | .ok parsed =>
    if parsed.host = [] then (false, lit "invalid i2p proxy URL")
    else if h.tcpAvailable parsed.host then (true, [])
    else (false, lit "i2p HTTP proxy unavailable")

def yggdrasilAvailable (c : Settings) (h : Host) : Bool × GoString :=
  if ¬c.yggdrasil then (false, lit "yggdrasil disabled")
  else if h.hasYggdrasilAddress then (true, [])
  else (false, lit "no yggdrasil address detected")

def modes (c : Settings) (h : Host) : GoMap GoString ModeInfo :=
  ((((∅ : GoMap GoString ModeInfo).insert proxyModeDirect ⟨true, none⟩).insert proxyModeTor
    (modeInfo (torAvailable c h))).insert proxyModeI2P (modeInfo (i2pAvailable c h))).insert
    proxyModeYggdrasil (modeInfo (yggdrasilAvailable c h))

end Modes

section Server

structure State where
  metrics : Metrics
  modeAvailable : GoMap GoString Bool

/-- What a request meets outside the server: the host, the networks, and what package `json` says
of a body that it refuses. -/
structure Env where
  host : Host
  net : Net
  jsonError : DecodeError → GoString

structure Server where
  settings : Settings
  client : Client
  unicode : Unicode

inductive Operation where
  | health | modes | request
  deriving DecidableEq

open ServeMux in
def apiRouter : List (Route Operation) :=
  [⟨lit "GET", [.literal (lit "v1"), .literal (lit "health")], .health⟩,
    ⟨lit "GET", [.literal (lit "v1"), .literal (lit "modes")], .modes⟩,
    ⟨lit "POST", [.literal (lit "v1"), .literal (lit "request")], .request⟩]

/-- What a caller gets; a handler that panics closes the connection. -/
inductive Answer where
  | health
  | modes (infos : GoMap GoString ModeInfo)
  | request (written : Written)
  | closed
  | unauthorized
  | redirected (path : GoString)
  | methodNotAllowed (allow : List GoString)
  | notFound

variable (s : Server) (env : Env)

def setModesAvailable (gauge : GoMap GoString Bool) (infos : GoMap GoString ModeInfo) :
    GoMap GoString Bool :=
  infos.toList.foldl (fun gauge p => gauge.insert p.1 p.2.available) gauge

def handle (st : State) (op : Operation) (body : Body) : Answer × State :=
  match op with
  | .health => (.health, st)
  | .modes =>
    let infos := modes s.settings env.host
    (.modes infos, ⟨st.metrics, setModesAvailable st.modeAvailable infos⟩)
  | .request =>
    let out := (handleRequest s.unicode s.client env.net
      (s.client.cfg.decodeBody env.jsonError body)).run st.metrics
    (out.1.elim .closed .request, ⟨out.2, st.modeAvailable⟩)

/-- The API server on one request. -/
def serve (st : State) (r : HTTPRequest Body) : Answer × State :=
  match ServeMux.route apiRouter r.method r.path with
  | .found op _ =>
    if r.authorized s.settings.authToken then handle s env st op r.body else (.unauthorized, st)
  | .redirect path => (.redirected path, st)
  | .methodNotAllowed allow => (.methodNotAllowed allow, st)
  | .notFound => (.notFound, st)

def step (st : State) (x : HTTPRequest Body × Env) : Answer × State := serve s x.2 st x.1

/-- The answer to a request without the token. -/
def refusal (r : HTTPRequest Body) : Answer :=
  match ServeMux.route apiRouter r.method r.path with
  | .found _ _ => .unauthorized
  | .redirect path => .redirected path
  | .methodNotAllowed allow => .methodNotAllowed allow
  | .notFound => .notFound

end Server

section Gate

variable {s : Server}

def heard (s : Server) (x : HTTPRequest Body × Env) : Bool := x.1.authorized s.settings.authToken

theorem step_refused (h : heard s x = false) (st : State) : step s st x = (refusal x.1, st) := by
  rw [step, serve, refusal]
  cases ServeMux.route apiRouter x.1.method x.1.path with
  | found op values =>
    simp only
    rw [if_neg (by rw [show x.1.authorized _ = false from h]; decide)]
  | redirect path => rfl
  | methodNotAllowed allow => rfl
  | notFound => rfl

/-- Requests without the token reach no network and leave no trace: the metrics and the answers to
everyone else are as if they had not come, and what they are told depends neither on the networks
nor on the host. A request has the token when its header is the token between blanks after
`Bearer`. -/
theorem unauthorized_inert (s : Server) (st : State) (xs : List (HTTPRequest Body × Env)) :
    (runOut (step s) st xs).2 = (runOut (step s) st (xs.filter (heard s))).2 ∧
    ((xs.zip (runOut (step s) st xs).1).filter fun y => heard s y.1).map Prod.snd =
      (runOut (step s) st (xs.filter (heard s))).1 ∧
    (∀ y ∈ xs.zip (runOut (step s) st xs).1, heard s y.1 = false → y.2 = refusal y.1.1) ∧
    ∀ x, heard s x = true ↔ Trimmed spaceTexts s.settings.authToken ∧
      ∃ left right, Blank spaceTexts left ∧ Blank spaceTexts right ∧
        headerGet x.1.header (lit "Authorization") =
          lit "Bearer " ++ (left ++ (s.settings.authToken ++ right)) := by
  obtain ⟨hstate, hans⟩ := runOut_purge (step s) (fun st => st) (heard s)
    (fun _ _ x h => h ▸ ⟨rfl, rfl⟩) (fun st x h => by rw [step_refused h]) (Eq.refl st) xs
  refine ⟨hstate, hans, ?_, fun x => bearerOK_iff⟩
  exact runOut_answers (step s) (Q := fun x ans => heard s x = false → ans = refusal x.1)
    (fun st x h => by rw [step_refused h]) st xs

end Gate

section Bodies

theorem decodeValue_struct (h : decodeValue v = .ok req) : v = .null ∨ ∃ ms, v = .obj ms := by
  cases v with
  | null => exact .inl rfl
  | obj ms => exact .inr ⟨ms, rfl⟩
  | bool b => cases h
  | num text => cases h
  | str s => cases h
  | arr vs => cases h

theorem decodeJSON_append (h : decodeJSON data = .ok req) (t : GoString) :
    decodeJSON (data ++ t) = .ok req := by
  rw [decodeJSON] at h
  cases hp : Json.parseValue maxNestingDepth (runes data) with
  | none =>
    rw [hp] at h
    cases h
  | some p =>
    obtain ⟨v, rest⟩ := p
    rw [hp] at h
    obtain ⟨u, w, rfl, _, hparse⟩ := Json.parseValue_bytes (decodeValue_struct h) hp
    rw [decodeJSON, List.append_assoc, hparse]
    exact h

/-- Unlike the control API, the egress API takes the first value of a body and never looks at what
follows it, as long as the body as a whole is within its limit. -/
theorem trailing_data_ignored {cfg : Config} (hmax : cfg.maxRequestBodyBytes < 2 ^ 62)
    (h : cfg.decodeRequest ⟨data, none⟩ = .ok req) (t : GoString) :
    cfg.decodeRequest ⟨data ++ t, none⟩ =
      if cfg.maxRequestBodyBytes + 4096 < data.length + t.length then
        .error (.plain (lit "request exceeds limit"))
      else .ok req := by
  rw [Config.decodeRequest_eq hmax] at h ⊢
  rw [List.length_append, Nat.cast_add]
  split at h
  · cases h
  · rw [decodeJSON_append h t]

/-- A second object, which is cut off, goes unnoticed. -/
theorem trailing_data_ignored_second :
    defaultConfig.decodeRequest ⟨lit "\x7b\x7d", none⟩ = .ok zeroRequest ∧
    defaultConfig.decodeRequest ⟨lit "\x7b\x7d" ++ lit "\x7b\"url\":", none⟩ =
      .ok zeroRequest := by
  have h : defaultConfig.decodeRequest ⟨lit "\x7b\x7d", none⟩ = .ok zeroRequest := by
    rw [Config.decodeRequest_eq (by decide)]
    rfl
  refine ⟨h, ?_⟩
  rw [trailing_data_ignored (by decide) h, if_neg (by decide)]

end Bodies

end Egress

end HyruleProxy
