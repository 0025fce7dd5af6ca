import HyruleProxy.GoString
import HyruleProxy.Runs

namespace HyruleProxy
set_option autoImplicit true

structure UDPAddr where
  ip : List UInt8
  port : Nat
  deriving DecidableEq

namespace Stun

section Respond

/-- The fields of a decoded message that `respond` reads. -/
structure Message (τ : Type) where
  type : τ
  transactionID : GoString

/-- The size of the buffer of `ListenAndServe`; a longer packet is cut off. -/
def bufferSize : Nat := 1500

/-- What the responder relies on in the STUN package, over the types of messages `τ`: what is built
as a message of one type decodes as one of that type, no packet below `shortest` decodes, and what
is built with a source address and a fingerprint has at most `longest` bytes. -/
structure Package (τ : Type) where
  bindingRequest : τ
  bindingSuccess : τ
  decode : GoString → Option (Message τ)
  build : GoString → τ → UDPAddr → Option GoString
  shortest : Nat
  longest : Nat
  success_ne : bindingSuccess ≠ bindingRequest
  longest_le : longest ≤ bufferSize
  type_of_build : ∀ id t src out m, build id t src = some out → decode out = some m → m.type = t
  le_of_decode : ∀ raw m, decode raw = some m → shortest ≤ raw.length
  le_of_build : ∀ id t src out, build id t src = some out → out.length ≤ longest

variable {τ : Type} [DecidableEq τ] (stun : Package τ)

/-- The packet that `respond` writes to the source of a packet, if it does. -/
def respond (raw : GoString) (src : UDPAddr) : Option GoString :=
  (stun.decode raw).bind fun req =>
    if req.type ≠ stun.bindingRequest then none
    else stun.build req.transactionID stun.bindingSuccess src

variable {stun}

theorem respond_eq_some : respond stun raw src = some out ↔
    ∃ req, stun.decode raw = some req ∧ req.type = stun.bindingRequest ∧
      stun.build req.transactionID stun.bindingSuccess src = some out := by
  simp only [respond, Option.bind_eq_some_iff, Option.ite_none_left_eq_some, not_not]

theorem respond_respond (h : respond stun raw src = some out) (src' : UDPAddr) :
    respond stun out src' = none := by
  obtain ⟨req, _, _, hbuild⟩ := respond_eq_some.1 h
  by_contra hne
  obtain ⟨out', hout⟩ := Option.ne_none_iff_exists'.1 hne
  obtain ⟨m, hm, htype, _⟩ := respond_eq_some.1 hout
  rw [stun.type_of_build _ _ _ _ m hbuild hm] at htype
  exact stun.success_ne htype

end Respond

section Network

structure Datagram where
  src : UDPAddr
  dst : UDPAddr
  raw : GoString

variable {τ : Type} [DecidableEq τ] (stun : Package τ)

/-- What a responder at the destination of a packet sends back. -/
def answer (d : Datagram) : Option Datagram :=
  (respond stun (d.raw.take bufferSize) d.src).map fun out => ⟨d.dst, d.src, out⟩

/-- Packets on their way between hosts that all run a responder, and the bytes that these have
sent. -/
structure Net where
  flight : List Datagram
  sent : Nat

inductive Hop where
  | deliver (i : Nat)
  | lose (i : Nat)

def Net.step (n : Net) : Hop → Option Net
  | .deliver i => n.flight[i]?.map fun d =>
    ⟨n.flight.eraseIdx i ++ (answer stun d).toList,
      n.sent + ((answer stun d).map (·.raw.length)).getD 0⟩
  | .lose i => n.flight[i]?.map fun _ => { n with flight := n.flight.eraseIdx i }

/-- How many hops a packet can still cause. -/
def Datagram.hops (d : Datagram) : Nat := if (answer stun d).isSome then 2 else 1

/-- What a packet can still make the responders send, times `shortest`. -/
def Datagram.charge (d : Datagram) : Nat :=
  if (answer stun d).isSome then stun.longest * d.raw.length else 0

variable {stun}

/-- A reply is never answered, and both lengths are within the bounds of the package. -/
theorem answer_spec (h : answer stun d = some e) : answer stun e = none ∧
    e.raw.length ≤ stun.longest ∧ stun.shortest ≤ d.raw.length := by
  obtain ⟨out, hout, rfl⟩ := Option.map_eq_some_iff.1 h
  obtain ⟨req, hreq, _, hbuild⟩ := respond_eq_some.1 hout
  have hlong := stun.le_of_build _ _ _ _ hbuild
  have hshort := stun.le_of_decode _ _ hreq
  refine ⟨?_, hlong, ?_⟩
  · rw [answer, List.take_of_length_le (hlong.trans stun.longest_le), respond_respond hout,
      Option.map_none]
  · rw [List.length_take] at hshort
    omega

theorem sum_map_eraseIdx {l : List α} (f : α → Nat) (h : l[i]? = some a) :
    (l.map f).sum = f a + ((l.eraseIdx i).map f).sum := by
  obtain ⟨hi, rfl⟩ := List.getElem?_eq_some_iff.1 h
  exact ((List.getElem_cons_eraseIdx_perm hi).map f).sum_eq.symm

theorem Net.step_hops {n n' : Net} (h : n.step stun hop = some n') :
    (n'.flight.map (Datagram.hops stun)).sum + 1 ≤ (n.flight.map (Datagram.hops stun)).sum := by
  cases hop with
  | deliver i =>
    obtain ⟨d, hd, rfl⟩ := Option.map_eq_some_iff.1 h
    rw [sum_map_eraseIdx _ hd]
    cases ha : answer stun d with
    | none =>
      simp only [Datagram.hops, ha, Option.toList_none, List.append_nil, Option.isSome_none,
        Bool.false_eq_true, if_false]
      omega
    | some e =>
      have hnone := (answer_spec ha).1
      simp only [Datagram.hops, ha, hnone, Option.toList_some, List.map_append, List.sum_append,
        List.map_singleton, List.sum_singleton, Option.isSome_none, Option.isSome_some,
        Bool.false_eq_true, if_false, if_true]
      omega
  | lose i =>
    obtain ⟨d, hd, rfl⟩ := Option.map_eq_some_iff.1 h
    rw [sum_map_eraseIdx _ hd]
    have hpos : 1 ≤ d.hops stun := by
      rw [Datagram.hops]
      split <;> decide
    simp only
    omega

theorem Net.step_charge {n n' : Net} (h : n.step stun hop = some n') :
    stun.shortest * n'.sent + (n'.flight.map (Datagram.charge stun)).sum + 0 ≤
      stun.shortest * n.sent + (n.flight.map (Datagram.charge stun)).sum := by
  cases hop with
  | deliver i =>
    obtain ⟨d, hd, rfl⟩ := Option.map_eq_some_iff.1 h
    rw [sum_map_eraseIdx _ hd]
    cases ha : answer stun d with
    | none => simp [Datagram.charge, ha]
    | some e =>
      obtain ⟨hnone, hmax, hmin⟩ := answer_spec ha
      have hpaid : stun.shortest * e.raw.length ≤ stun.longest * d.raw.length :=
        calc stun.shortest * e.raw.length ≤ d.raw.length * stun.longest := Nat.mul_le_mul hmin hmax
          _ = stun.longest * d.raw.length := Nat.mul_comm _ _
      simp only [Datagram.charge, ha, hnone, Option.toList_some, List.map_append, List.sum_append,
        List.map_singleton, List.sum_singleton, Option.isSome_none, Option.isSome_some,
        Bool.false_eq_true, if_false, if_true, Option.map_some, Option.getD_some, Nat.mul_add]
      omega
  | lose i =>
    obtain ⟨d, hd, rfl⟩ := Option.map_eq_some_iff.1 h
    rw [sum_map_eraseIdx _ hd]
    simp only
    omega

/-- A package whose messages are a type of two bytes, six bytes that it does not use and an id. -/
def headersOnly : Package GoString where
  bindingRequest := [0, 1]
  bindingSuccess := [1, 1]
  decode raw := if raw.length = 20 then some ⟨raw.take 2, raw.drop 8⟩ else none
  build id t _ :=
    if t.length = 2 ∧ id.length = 12 then some (t ++ List.replicate 6 0 ++ id) else none
  shortest := 20
  longest := 20
  success_ne := by decide
  longest_le := by decide
  type_of_build id t src out m hb hd := by
    split at hb
    · rename_i hlen
      cases hb
      split at hd
      · cases hd
        rw [List.append_assoc, List.take_left' hlen.1]
      · cases hd
    · cases hb
  le_of_decode raw m hd := by
    split at hd
    · rename_i hlen
      exact hlen.ge
    · cases hd
  le_of_build id t src out hb := by
    split at hb
    · rename_i hlen
      cases hb
      simp only [List.length_append, List.length_replicate, hlen]
      decide
    · cases hb

/-- A request that seems to come from another responder. -/
def sampleSpoof : List Datagram :=
  [⟨⟨[192, 0, 2, 1], 3478⟩, ⟨[192, 0, 2, 2], 3478⟩,
    [0, 1] ++ List.replicate 6 0 ++ List.replicate 12 7⟩]

end Network

end Stun

end HyruleProxy
