import Mathlib
import ChainSync.Proofs.Http.Target
import ChainSync.Proofs.Json.Blocks

/-!
# A peer over HTTP agrees with the chain that it serves

What a node answers to the requests of a peer is said by the look-ups of its chain alone
(`respond_headersPath`, `respond_blockPath`), and what the peer reads from that answer is what the
look-up found, or the status of a failed look-up. The chain may be anything, damaged tables included.
-/

namespace ChainSync.Http

/-- The text of a hash is not empty. -/
lemma encode_hex_ne_nil (h : Hash) : Utf8.encode h.hex ≠ [] := by
  intro hnil
  have hlen := congrArg List.length hnil
  rw [Hash.hex, Hex.utf8_encode, List.length_map, Hex.length_digits, h.length_bytes] at hlen
  cases hlen

/-- The path of a request for headers leads to that route. -/
lemma ofPath?_headers (hash : Hash) :
    Route.ofPath? (Ascii.slash :: (Utf8.encode "headers" ++ Ascii.slash :: Utf8.encode hash.hex)) =
      some (.headers (Utf8.encode hash.hex)) := by
  have hchain : Utf8.encode "headers" ≠ Utf8.encode "chain" := by decide +kernel
  rw [Route.ofPath?, pathSegments_two (by decide +kernel) (plain_hex hash)]
  simp [hchain, encode_hex_ne_nil]

/-- The path of a request for a block leads to that route. -/
lemma ofPath?_blocks (hash : Hash) :
    Route.ofPath? (Ascii.slash :: (Utf8.encode "blocks" ++ Ascii.slash :: Utf8.encode hash.hex)) =
      some (.block (Utf8.encode hash.hex)) := by
  have hchain : Utf8.encode "blocks" ≠ Utf8.encode "chain" := by decide +kernel
  have hheaders : Utf8.encode "blocks" ≠ Utf8.encode "headers" := by decide +kernel
  rw [Route.ofPath?, pathSegments_two (by decide +kernel) (plain_hex hash)]
  simp [hchain, hheaders, encode_hex_ne_nil]

/-- The text of a hash in a path is read as the hash. -/
lemma hashOf_hex (h : Hash) : hashOf h.hex = .ok h := by
  rw [hashOf, Hash.parse_hex]
  rfl

/-- A request for headers is answered with those that the chain finds, at least one and at most as
many as a node sends are asked for. -/
theorem respond_headersPath (c : Chain) (hash : Hash) (limit : UInt32) :
    respond c { method := "GET", target := HttpPeer.headersPath hash limit } =
      match c.headersDescending hash (min (max limit.toNat 1) maxHeaders) with
      | .ok headers => .json (Header.listToJson headers).print
      | .error e => .text 500 e.message := by
  rw [respond, HttpPeer.splitTarget_headersPath]
  simp only [ofPath?_headers, Route.respond, answerHeaders, segmentText_hex, limitOf_encode,
    bind, Except.bind, hashOf_hex, clampLimit, Option.getD_some]
  cases c.headersDescending hash (min (max limit.toNat 1) maxHeaders) with
  | ok headers => rfl
  | error e => rfl

/-- A request for a block is answered with the one that the chain finds. -/
theorem respond_blockPath (c : Chain) (hash : Hash) :
    respond c { method := "GET", target := HttpPeer.blockPath hash } =
      match c.blockByHash? hash with
      | .ok (some block) => .json block.toJson.print
      | .ok none => .text 404 s!"unknown block {hash.hex}"
      | .error e => .text 500 e.message := by
  rw [respond, HttpPeer.splitTarget_blockPath]
  simp only [ofPath?_blocks, Route.respond, answerBlock, segmentText_hex, bind, Except.bind,
    hashOf_hex]
  cases c.blockByHash? hash with
  | ok found =>
    cases found with
    | some block => rfl
    | none => rfl
  | error e => rfl

namespace HttpPeer

/-- Behind the address of the node comes the path. -/
lemma afterOrigin?_append (origin path : Bytes) :
    afterOrigin? origin (origin ++ path) = some path := by
  simp [afterOrigin?]

/-- A request to the address of a node is answered by the node. -/
lemma get_loopback (c : Chain) (origin : Bytes) (seen : List Bytes) (path : Bytes) :
    (Exchange.get (origin ++ path) : StateT Loopback Id _).run { origin, chain := c, seen } =
      (some (respond c { method := "GET", target := path }),
        { origin, chain := c, seen := path :: seen }) := by
  simp only [Exchange.get, StateT.run_bind, StateT.run_get, pure_bind, afterOrigin?_append]
  rfl

/-- The peer that asks a node with the chain `c` at the node's address. -/
def toNode (c : Chain) (base : Bytes) (seen : List Bytes) : HttpPeer Loopback where
  base
  exchange := { origin := base, chain := c, seen }

/-- A peer brings what the node answers to a request for a path. -/
lemma ask_toNode (c : Chain) (base : Bytes) (seen : List Bytes) (path : Bytes) :
    (ask path : StateT (HttpPeer Loopback) Id _).run (toNode c base seen) =
      (some (respond c { method := "GET", target := path }), toNode c base (path :: seen)) := by
  have hget := get_loopback c base seen path
  change (((Exchange.get (base ++ path) : StateT Loopback Id _).run
      { origin := base, chain := c, seen }).1,
    ({ base, exchange := ((Exchange.get (base ++ path) : StateT Loopback Id _).run
      { origin := base, chain := c, seen }).2 } : HttpPeer Loopback)) = _
  rw [hget]
  rfl

/-- What a request for headers brings is what the chain of the node descends through. -/
lemma run_headers (c : Chain) (base : Bytes) (seen : List Bytes) (hash : Hash) (limit : UInt32) :
    (Peer.headers hash limit : StateT (HttpPeer Loopback) Id _).run (toNode c base seen) =
      ((c.headersDescending hash (min (max limit.toNat 1) maxHeaders)).mapError fun _ => .status 500,
        toNode c base (headersPath hash limit :: seen)) := by
  have hask := ask_toNode c base seen (headersPath hash limit)
  rw [respond_headersPath] at hask
  change (readHeaders ((ask (headersPath hash limit) : StateT (HttpPeer Loopback) Id _).run
    (toNode c base seen)).1, ((ask (headersPath hash limit) : StateT (HttpPeer Loopback) Id _).run
    (toNode c base seen)).2) = _
  rw [hask]
  cases c.headersDescending hash (min (max limit.toNat 1) maxHeaders) with
  | ok headers =>
    have hread := Header.roundTrips_list.read_print headers
    simp [readHeaders, Response.json, isSuccess, readBody, hread, Except.mapError]
  | error e => rfl

/-- What a request for a block brings is what the chain of the node finds. -/
lemma run_block (c : Chain) (base : Bytes) (seen : List Bytes) (hash : Hash) :
    (Peer.block hash : StateT (HttpPeer Loopback) Id _).run (toNode c base seen) =
      ((c.blockByHash? hash).mapError fun _ => .status 500,
        toNode c base (blockPath hash :: seen)) := by
  have hask := ask_toNode c base seen (blockPath hash)
  rw [respond_blockPath] at hask
  change (readBlock ((ask (blockPath hash) : StateT (HttpPeer Loopback) Id _).run
    (toNode c base seen)).1, ((ask (blockPath hash) : StateT (HttpPeer Loopback) Id _).run
    (toNode c base seen)).2) = _
  rw [hask]
  cases c.blockByHash? hash with
  | ok found =>
    cases found with
    | some block =>
      have hread := Block.roundTrips.read_print block
      simp [readBlock, Response.json, isSuccess, readBody, hread, Except.mapError, Except.map]
    | none => rfl
  | error e => rfl

/-- The peer agrees with the chain `c` of the node that it asks: what it brings is what the look-ups
of the chain find, and a look-up that fails is told as a failure of the node. No request is refused
as a bad one, and what arrives has the hashes of what the chain found. After a request the peer is
as before, but for the record of what it asked. -/
structure Agrees (c : Chain) (base : Bytes) (seen : List Bytes) : Prop where
  headers : ∀ hash limit,
    (Peer.headers hash limit : StateT (HttpPeer Loopback) Id _).run (toNode c base seen) =
      ((c.headersDescending hash (min (max limit.toNat 1) 1024)).mapError fun _ => .status 500,
        toNode c base (headersPath hash limit :: seen))
  block : ∀ hash,
    (Peer.block hash : StateT (HttpPeer Loopback) Id _).run (toNode c base seen) =
      ((c.blockByHash? hash).mapError fun _ => .status 500,
        toNode c base (blockPath hash :: seen))
  status_headers : ∀ hash limit,
    (respond c { method := "GET", target := headersPath hash limit }).status ≠ 400
  status_block : ∀ hash, (respond c { method := "GET", target := blockPath hash }).status ≠ 400
  hash_headers : ∀ {hash limit received},
    ((Peer.headers hash limit : StateT (HttpPeer Loopback) Id _).run (toNode c base seen)).1 =
      .ok received →
    ∃ served, c.headersDescending hash (min (max limit.toNat 1) 1024) = .ok served ∧
      received.map Header.hash = served.map Header.hash
  hash_block : ∀ {hash received},
    ((Peer.block hash : StateT (HttpPeer Loopback) Id _).run (toNode c base seen)).1 =
      .ok (some received) →
    ∃ served, c.blockByHash? hash = .ok (some served) ∧ received.hash = served.hash

/-- No request for headers is refused as a bad one. -/
lemma status_respond_headersPath (c : Chain) (hash : Hash) (limit : UInt32) :
    (respond c { method := "GET", target := headersPath hash limit }).status ≠ 400 := by
  rw [respond_headersPath]
  cases c.headersDescending hash (min (max limit.toNat 1) maxHeaders) <;>
    simp [Response.json, Response.text]

/-- No request for a block is refused as a bad one. -/
lemma status_respond_blockPath (c : Chain) (hash : Hash) :
    (respond c { method := "GET", target := blockPath hash }).status ≠ 400 := by
  rw [respond_blockPath]
  cases c.blockByHash? hash with
  | ok found => cases found <;> simp [Response.json, Response.text]
  | error e => simp [Response.text]

/-- Whatever the tables of a node hold, a peer that asks it over HTTP agrees with its chain. -/
theorem agrees_toNode (c : Chain) (base : Bytes) (seen : List Bytes) : Agrees c base seen where
  headers := run_headers c base seen
  block := run_block c base seen
  status_headers := status_respond_headersPath c
  status_block := status_respond_blockPath c
  hash_headers := by
    intro hash limit received h
    rw [run_headers] at h
    cases hfound : c.headersDescending hash (min (max limit.toNat 1) maxHeaders) with
    | ok served =>
      rw [hfound] at h
      cases h
      exact ⟨received, hfound, rfl⟩
    | error e =>
      rw [hfound] at h
      cases h
  hash_block := by
    intro hash received h
    rw [run_block] at h
    cases hfound : c.blockByHash? hash with
    | ok served =>
      rw [hfound] at h
      cases h
      exact ⟨received, rfl, rfl⟩
    | error e =>
      rw [hfound] at h
      cases h

end HttpPeer
end ChainSync.Http
