import HyruleProxy.Bearer
import HyruleProxy.Client
import HyruleProxy.Coordinator
import HyruleProxy.LeaseCodec
import HyruleProxy.Runs
import HyruleProxy.ServeMux

namespace HyruleProxy
set_option autoImplicit true

structure CreateLeaseRequest where
  leaseID : GoString
  durationSeconds : Int64
  allowlistCIDRs : List GoString
  deriving DecidableEq

structure ExtendLeaseRequest where
  durationSeconds : Int64
  deriving DecidableEq

namespace ControlAPI

def maxControlBodyBytes : Nat := 16 * 2 ^ 10

/-- Why `decodeJSON` refuses a body: the reader's error, its size, what package `json` says, or
something after the first value. -/
inductive BodyError where
  | read (text : GoString)
  | tooLarge
  | json
  | trailing
  deriving DecidableEq

section Decode

/-- Decodes an object into a structure whose fields are found by their tags; unknown fields are
disallowed. The decoder goes on after an error, which it returns at the end. -/
def decodeStruct (fields : List (String × (σ → Json → Option σ))) (zero : σ) : Json → Option σ
  | .obj ms => ms.foldlM (fun d m =>
      (fields.find? fun f => foldName f.1.toList = foldName m.1).bind fun f => f.2 d m.2) zero
  | .null => some zero
  | _ => none

/-- A request while it is decoded, with the cells that its slice keeps. -/
structure CreateDraft where
  leaseID : List Char
  durationSeconds : Int64
  cells : List (List Char)
  len : Nat

def CreateDraft.zero : CreateDraft := ⟨[], 0, [], 0⟩

def decodeSlice (cells : List (List Char)) : Json → Option (List (List Char) × Nat)
  | .null => some ([], 0)
  | .arr [] => some ([], 0)
  | .arr vs => (decodeCells cells vs).map fun cells => (cells, vs.length)
  | _ => none

def createFields : List (String × (CreateDraft → Json → Option CreateDraft)) :=
  [("lease_id", fun d v => (decodeRunes d.leaseID v).map fun s => { d with leaseID := s }),
    ("duration_seconds", fun d v =>
      (decodeInt64 d.durationSeconds v).map fun n => { d with durationSeconds := n }),
    ("allowlist_cidrs", fun d v =>
      (decodeSlice d.cells v).map fun c => { d with cells := c.1, len := c.2 })]

def CreateDraft.finish (d : CreateDraft) : CreateLeaseRequest where
  leaseID := utf8Encode d.leaseID
  durationSeconds := d.durationSeconds
  allowlistCIDRs := (d.cells.take d.len).map utf8Encode

def decodeCreate (v : Json) : Option CreateLeaseRequest :=
  (decodeStruct createFields .zero v).map CreateDraft.finish

def extendFields : List (String × (ExtendLeaseRequest → Json → Option ExtendLeaseRequest)) :=
  [("duration_seconds", fun d v => (decodeInt64 d.durationSeconds v).map fun n => ⟨n⟩)]

def decodeExtend (v : Json) : Option ExtendLeaseRequest := decodeStruct extendFields ⟨0⟩ v

/-- What `io.ReadAll` gets from the first `maxControlBodyBytes + 1` bytes of a body. -/
def readBody (body : Body) : Except BodyError GoString :=
  if maxControlBodyBytes < body.data.length then .error .tooLarge
  else
    match body.err with
    | some e => .error (.read e)
    | none => .ok body.data

def decodeJSON (decode : Json → Option σ) (body : Body) : Except BodyError σ := do
  let data ← readBody body
  match Json.parseValue maxNestingDepth (runes data) with
  | none => .error .json
  | some (v, rest) =>
    match decode v with
    | none => .error .json
    | some req => if Json.skipSpace rest = [] then .ok req else .error .trailing

end Decode

/-- The handlers, under the names by which they are counted. -/
inductive Operation where
  | create | list | get | extend | revoke | health
  deriving DecidableEq

def Operation.label : Operation → GoString
  | .create => lit "create"
  | .list => lit "list"
  | .get => lit "get"
  | .extend => lit "extend"
  | .revoke => lit "revoke"
  | .health => lit "health"

open ServeMux in
def router : List (Route Operation) :=
  let leases := [.literal (lit "v1"), .literal (lit "leases")]
  [⟨lit "POST", leases, .create⟩, ⟨lit "GET", leases, .list⟩,
    ⟨lit "GET", leases ++ [.wildcard], .get⟩,
    ⟨lit "POST", leases ++ [.wildcard, .literal (lit "extend")], .extend⟩,
    ⟨lit "DELETE", leases ++ [.wildcard], .revoke⟩,
    ⟨lit "GET", [.literal (lit "v1"), .literal (lit "health")], .health⟩]

inductive ResponseBody where
  | lease (resp : LeaseResponse)
  | leases (resps : List LeaseResponse)
  | health (resp : HealthResponse)
  | error (text : GoString)
  | empty
  deriving DecidableEq

structure Response where
  status : Int
  body : ResponseBody
  deriving DecidableEq

def writeError (status : Int) (text : GoString) : Response := ⟨status, .error text⟩

/-- What a request meets outside the daemon, with what package `json` says of a body it refuses. -/
structure Env extends ControlEnv where
  jsonError : GoString

structure API where
  cfg : TunnelConfig
  token : GoString
  unicode : Unicode

namespace API

variable (a : API) (s : Store) (env : Env)

def bodyError : BodyError → GoString
  | .read text => text
  | .tooLarge => lit "request body too large"
  | .json => env.jsonError
  | .trailing => lit "unexpected trailing data after JSON object"

def createLease (req : CreateLeaseRequest) : Except StoreError LeaseResponse × Store :=
  let r := s.create ⟨req.leaseID, clampDuration a.cfg req.durationSeconds.toInt,
    req.allowlistCIDRs⟩ ⟨env.portInUse, env.rand, env.now, env.persist⟩
  (r.result.map fun l => toResponse a.cfg env.stats l true, r.store)

def extendLease (id : GoString) (req : ExtendLeaseRequest) :
    Except StoreError LeaseResponse × Store :=
  let r := s.extend id (clampDuration a.cfg req.durationSeconds.toInt) env.persist
  (r.result.map fun l => toResponse a.cfg env.stats l false, r.store)

def revokeLease (id : GoString) : Except StoreError Unit × Store :=
  let r := s.revoke id (env.commits id)
  (r.result, r.store)

def getLease (id : GoString) : Option LeaseResponse :=
  (s.get id).map fun l => toResponse a.cfg env.stats l false

def listLeases : List LeaseResponse := s.list.map fun l => toResponse a.cfg env.stats l false

def createStatus : Except StoreError LeaseResponse → Response
  | .ok resp => ⟨200, .lease resp⟩
  | .error .portsExhausted => writeError 503 (lit "no free tunnel ports")
  | .error (.invalidCIDR c) =>
    writeError 400 (lit "invalid allowlist CIDR: " ++ quote a.unicode c)
  | .error _ => writeError 500 (lit "create failed")

def handleCreate (body : Body) : Response × Store :=
  match decodeJSON decodeCreate body with
  | .error e => (writeError 400 (bodyError env e), s)
  | .ok req =>
    if req.leaseID = [] then (writeError 400 (lit "lease_id is required"), s)
    else if req.durationSeconds.toInt ≤ 0 then
      (writeError 400 (lit "duration_seconds must be positive"), s)
    else
      let r := a.createLease s env req
      (a.createStatus r.1, r.2)

def extendStatus : Except StoreError LeaseResponse → Response
  | .ok resp => ⟨200, .lease resp⟩
  | .error .notFound => writeError 404 (lit "lease not found")
  | .error _ => writeError 500 (lit "extend failed")

def handleExtend (id : GoString) (body : Body) : Response × Store :=
  match decodeJSON decodeExtend body with
  | .error e => (writeError 400 (bodyError env e), s)
  | .ok req =>
    if req.durationSeconds.toInt ≤ 0 then
      (writeError 400 (lit "duration_seconds must be positive"), s)
    else
      let r := a.extendLease s env id req
      (extendStatus r.1, r.2)

def revokeStatus : Except StoreError Unit → Response
  | .ok _ => ⟨204, .empty⟩
  | .error .notFound => writeError 404 (lit "lease not found")
  | .error _ => writeError 500 (lit "revoke failed")

def handleRevoke (id : GoString) : Response × Store :=
  let r := revokeLease s env id
  (revokeStatus r.1, r.2)

def handleGet (id : GoString) : Response :=
  match a.getLease s env id with
  | none => writeError 404 (lit "lease not found")
  | some resp => ⟨200, .lease resp⟩

/-- The handler of an operation; `id` is the path value of the same name. -/
def handle (op : Operation) (id : GoString) (body : Body) : Response × Store :=
  match op with
  | .create => a.handleCreate s env body
  | .list => (⟨200, .leases (a.listLeases s env)⟩, s)
  | .get => (a.handleGet s env id, s)
  | .extend => a.handleExtend s env id body
  | .revoke => handleRevoke s env id
  | .health => (⟨200, .health (healthResponse s)⟩, s)

/-- `withAuth` around the handler of an operation. -/
def withAuth (op : Operation) (id : GoString) (r : HTTPRequest Body) : Response × Store :=
  if r.authorized a.token then a.handle s env op id r.body
  else (writeError 401 (lit "unauthorized"), s)

end API

/-- A call of a handler on its `ResponseWriter`. -/
inductive WriterCall where
  | writeHeader (code : Int)
  | write (body : ResponseBody)
  deriving DecidableEq

/-- The writer that `withAuth` hands to a handler; `calls` have gone on to the writer beneath. -/
structure StatusRecorder where
  calls : List WriterCall
  status : Int
  wroteHeader : Bool

namespace StatusRecorder

def new : StatusRecorder := ⟨[], 200, false⟩

def writeHeader (s : StatusRecorder) (code : Int) : StatusRecorder :=
  let s := if !s.wroteHeader then { s with status := code, wroteHeader := true } else s
  { s with calls := s.calls ++ [.writeHeader code] }

def write (s : StatusRecorder) (body : ResponseBody) : StatusRecorder :=
  let s := if !s.wroteHeader then { s with wroteHeader := true } else s
  { s with calls := s.calls ++ [.write body] }

def apply (s : StatusRecorder) : WriterCall → StatusRecorder
  | .writeHeader code => s.writeHeader code
  | .write body => s.write body

end StatusRecorder

def writeJSON (w : StatusRecorder) (status : Int) (body : ResponseBody) : StatusRecorder :=
  (w.writeHeader status).write body

/-- How a handler writes its response; a revocation writes no body. -/
def Response.writeTo (resp : Response) (w : StatusRecorder) : StatusRecorder :=
  match resp.body with
  | .empty => w.writeHeader resp.status
  | body => writeJSON w resp.status body

/-- The label values with which the request counter has been incremented, in order. -/
abbrev Incs := List (GoString × GoString)

def record (incs : Incs) (op : Operation) (code : Int) : Incs := incs ++ [(op.label, itoa code)]

structure Gateway where
  store : Store
  incs : Incs

/-- The answer of the server: a path or a method that the router does not know is not counted. -/
inductive Answer where
  | handled (op : Operation) (resp : Response)
  | redirected (path : GoString)
  | methodNotAllowed (allow : List GoString)
  | notFound
  deriving DecidableEq

def serve (a : API) (g : Gateway) (env : Env) (r : HTTPRequest Body) : Answer × Gateway :=
  match ServeMux.route router r.method r.path with
  | .found op values =>
    let out := a.withAuth g.store env op (values.headD []) r
    (.handled op out.1, ⟨out.2, record g.incs op (out.1.writeTo .new).status⟩)
  | .redirect path => (.redirected path, g)
  | .methodNotAllowed allow => (.methodNotAllowed allow, g)
  | .notFound => (.notFound, g)

/-- What happens to the daemon: a request comes in, or a sweep gets to its next lease. Requests run
between the steps of a sweep, and each of them changes the store at most once. -/
inductive Arrival where
  | request (r : HTTPRequest Body) (env : Env)
  | mark (id : GoString) (cutoff : Time) (commits : Bool)

/-- One arrival, with the answer if there is someone to answer. -/
def step (a : API) (g : Gateway) : Arrival → Option Answer × Gateway
  | .request r env => ((serve a g env r).1, (serve a g env r).2)
  | .mark id cutoff commits =>
    (none, { g with store := (g.store.markExpiredIfBefore id cutoff commits).store })

/-- The answers to a sequence of arrivals, and the daemon after it. -/
def run (a : API) (g : Gateway) (xs : List Arrival) : List (Option Answer) × Gateway :=
  runOut (step a) g xs

end ControlAPI

end HyruleProxy
