import HyruleProxy.Lease
import HyruleProxy.Allocator

namespace HyruleProxy
set_option autoImplicit true

/-- The bbolt file: the rows of the `leases` bucket, or nothing before the bucket exists. -/
structure DB where
  leases : Option (GoMap GoString Row)

def DB.empty : DB := ⟨none⟩

/-- `persist` inside its transaction; without the bucket the transaction fails. -/
def DB.put (db : DB) (key : GoString) (row : Row) : Option DB :=
  db.leases.map fun b => ⟨some (b.insert key row)⟩

def DB.delete (db : DB) (key : GoString) : DB := ⟨db.leases.map (·.erase key)⟩

/-- The lease store. The two indexes hold pointers, here positions in `heap`, so that a write
through one is seen through the other. -/
structure Store where
  db : DB
  heap : List Lease
  byID : GoMap GoString Nat
  byToken : GoMap GoString Nat
  alloc : PortAllocator

inductive StoreError where
  | notFound
  | portsExhausted
  | invalidCIDR (cidr : GoString)
  | mintToken
  | marshal
  | update
  | bucketMissing
  deriving DecidableEq

structure CreateParams where
  leaseID : GoString
  duration : Duration
  allowlistCIDRs : List GoString

/-- How `persist` ends: `json.Marshal` fails, the transaction fails, or it commits. -/
inductive Persist where
  | marshalFails
  | updateFails
  | commits
  deriving DecidableEq

/-- What `Create` reads from outside the store. -/
structure CreateEnv where
  portInUse : Int → Bool
  rand : Option (List UInt8)
  now : Time
  persist : Persist

/-- The result of a call, the store it leaves, and the stores in which the process can die
while the call runs, oldest first. -/
structure Outcome (α : Type) where
  result : α
  store : Store
  points : List Store

def tokenAlphabet : GoString := lit "abcdefghijklmnopqrstuvwxyz234567"

def byteBits (b : UInt8) : List Bool := [7, 6, 5, 4, 3, 2, 1, 0].map b.toNat.testBit

def base32Digit (bits : List Bool) : UInt8 :=
  tokenAlphabet.getD (bits.foldl (fun n b => 2 * n + b.toNat) 0) 0

/-- Unpadded base32 of a bit string; a short last group is filled with zeros. -/
def base32 : List Bool → GoString
  | a :: b :: c :: d :: e :: bits => base32Digit [a, b, c, d, e] :: base32 bits
  | [] => []
  | bits => [base32Digit (bits ++ List.replicate (5 - bits.length) false)]

def encodeToString (buf : List UInt8) : GoString := base32 (buf.flatMap byteBits)

def mintToken (rand : Option (List UInt8)) : Option GoString := rand.map encodeToString

theorem base32Digit_lt (bits : List Bool) : base32Digit bits < 128 := by
  have hall : ∀ b ∈ tokenAlphabet, b < 128 := by decide +kernel
  rw [base32Digit, List.getD_eq_getElem?_getD]
  cases h : tokenAlphabet[bits.foldl (fun n b => 2 * n + b.toNat) 0]? with
  | none => decide
  | some b => exact hall b (List.mem_of_getElem? h)

theorem base32_ascii (bits : List Bool) : IsASCII (base32 bits) := by
  fun_induction base32 bits with
  | case1 a b c d e bits ih => exact .cons (base32Digit_lt _) ih
  | case2 => exact .nil
  | case3 => exact .cons (base32Digit_lt _) .nil

theorem mintToken_ascii (h : mintToken rand = some token) : IsASCII token := by
  obtain ⟨buf, _, rfl⟩ := Option.map_eq_some_iff.1 h
  exact base32_ascii _

namespace Store

def deref (s : Store) (r : Option Nat) : Option Lease := r.bind (s.heap[·]?)

def get (s : Store) (id : GoString) : Option Lease := s.deref s.byID[id]?

/-- The model of `ByToken`, which compares the token once more with the one of the lease. -/
def findByToken (s : Store) (token : GoString) : Option Lease :=
  match s.deref s.byToken[token]? with
  | none => none
  | some l => if l.token = token then some l else none

def stats (s : Store) : Int × Int := (s.byID.size, s.alloc.free)

def expiredBefore (s : Store) (now : Time) : List GoString :=
  s.byID.keys.filter fun id => (s.get id).any (·.expired now)

def persist (s : Store) (l : Lease) : Persist → Except StoreError DB
  | .marshalFails => .error .marshal
  | .updateFails => .error .update
  | .commits =>
    match s.db.put l.leaseID l.marshal with
    | none => .error .bucketMissing
    | some db => .ok db

/-- The lease `Create` builds before it persists it. -/
def newLease (p : CreateParams) (token : GoString) (port : Int) (now : Time) : Lease where
  leaseID := p.leaseID
  token := token
  allocatedPort := port
  allowlistCIDRs := p.allowlistCIDRs
  createdAt := now
  expiresAt := now + p.duration
  status := .active

/-- A new lease enters both indexes under one pointer. -/
def install (s : Store) (l : Lease) : Store :=
  { s with
    heap := s.heap ++ [l]
    byID := s.byID.insert l.leaseID s.heap.length
    byToken := s.byToken.insert l.token s.heap.length }

def create (s : Store) (p : CreateParams) (env : CreateEnv) :
    Outcome (Except StoreError Lease) :=
  match s.get p.leaseID with
  | some existing => ⟨.ok existing, s, [s]⟩
  | none =>
    match p.allowlistCIDRs.find? fun c => (parseCIDR c).isNone with
    | some c => ⟨.error (.invalidCIDR c), s, [s]⟩
    | none =>
      match s.alloc.allocate env.portInUse with
      | (none, a) => ⟨.error .portsExhausted, { s with alloc := a }, [s]⟩
      | (some port, a) =>
        let s₁ := { s with alloc := a }
        match mintToken env.rand with
        | none => ⟨.error .mintToken, { s₁ with alloc := a.release port }, [s, s₁]⟩
        | some token =>
          let l := newLease p token port env.now
          match s₁.persist l env.persist with
          | .error e => ⟨.error e, { s₁ with alloc := a.release port }, [s, s₁]⟩
          | .ok db =>
            let s₂ := { s₁ with db := db }
            ⟨.ok l, s₂.install l, [s, s₁, s₂]⟩

def extend (s : Store) (id : GoString) (d : Duration) (o : Persist) :
    Outcome (Except StoreError Lease) :=
  match s.byID[id]? with
  | none => ⟨.error .notFound, s, [s]⟩
  | some r =>
    match s.heap[r]? with
    | none => ⟨.error .notFound, s, [s]⟩
    | some l =>
      let updated := { l with expiresAt := l.expiresAt + d }
      match s.persist updated o with
      | .error e => ⟨.error e, s, [s]⟩
      | .ok db =>
        let s₁ := { s with db := db }
        let s₂ := { s₁ with heap := s.heap.set r updated }
        ⟨.ok updated, s₂, [s, s₁]⟩

/-- The row goes first, then the indexes, then the port; `commits` says whether the
transaction succeeds. -/
def remove (s : Store) (id : GoString) (commits : Bool) : Outcome (Except StoreError Unit) :=
  match s.get id with
  | none => ⟨.error .notFound, s, [s]⟩
  | some l =>
    if commits then
      let s₁ := { s with db := s.db.delete id }
      let s₂ := { s₁ with byID := s.byID.erase id }
      let s₃ := { s₂ with byToken := s.byToken.erase l.token }
      let s₄ := { s₃ with alloc := s.alloc.release l.allocatedPort }
      ⟨.ok (), s₄, [s, s₁, s₂, s₃]⟩
    else ⟨.error .update, s, [s]⟩

def revoke (s : Store) (id : GoString) (commits : Bool) : Outcome (Except StoreError Unit) :=
  s.remove id commits

def markExpired (s : Store) (id : GoString) (commits : Bool) : Outcome (Except StoreError Unit) :=
  s.remove id commits

/-- The three results `(wasExpired, removed, err)` of `MarkExpiredIfBefore`. -/
structure Expiry where
  wasExpired : Bool
  removed : Bool
  err : Option StoreError
  deriving DecidableEq

def markExpiredIfBefore (s : Store) (id : GoString) (cutoff : Time) (commits : Bool) :
    Outcome Expiry :=
  match s.get id with
  | none => ⟨⟨false, false, none⟩, s, [s]⟩
  | some l =>
    if cutoff < l.expiresAt then ⟨⟨false, false, none⟩, s, [s]⟩
    else
      match s.remove id commits with
      | ⟨.error e, s', ps⟩ => ⟨⟨true, false, some e⟩, s', ps⟩
      | ⟨.ok _, s', ps⟩ => ⟨⟨true, true, none⟩, s', ps⟩

end Store

/-- Whether `Open` keeps a row: it decodes to an active lease that has not expired and whose
port is in the range. -/
def rehydrate (min max : Int) (now : Time) (row : Row) : Option Lease :=
  match row.unmarshal with
  | none => none
  | some l =>
    if l.status ≠ .active ∨ l.expired now then none
    else if l.allocatedPort < min ∨ l.allocatedPort > max then none
    else some l

/-- The body of the `ForEach` in `Open`: a row is loaded into the store or its key is noted as
stale. -/
def loadRow (min max : Int) (now : Time) (acc : Store × List GoString) (kv : GoString × Row) :
    Store × List GoString :=
  match rehydrate min max now kv.2 with
  | none => (acc.1, acc.2 ++ [kv.1])
  | some l =>
    ({ acc.1.install l with alloc := acc.1.alloc.reserve l.allocatedPort }, acc.2)

/-- The model of `Open`, whose one transaction creates the bucket if it is missing, loads the
live rows and deletes the others; nothing changes when it fails. -/
def openStore (db : DB) (min max : Int) (now : Time) (commits : Bool) : Option Store :=
  let bucket := db.leases.getD ∅
  let blank : Store := ⟨db, [], ∅, ∅, newPortAllocator min max⟩
  let loaded := bucket.toList.foldl (loadRow min max now) (blank, [])
  if commits then some { loaded.1 with db := ⟨some (bucket.eraseKeys loaded.2)⟩ } else none

end HyruleProxy
