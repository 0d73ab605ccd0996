import MoqRelay.Basic
import MoqRelay.Lib.Slots
import MoqRelay.Lib.SortedKeys
import MoqRelay.Lib.Trace

/-!
# Session/Token — the peer's auth token cache, and the transactions over it

`session_auth.c`: a bounded cache of tokens by alias, the overlay in which a request's registers and
deletes wait until the request is decided, and the loop that resolves a request's tokens against
one or the other.  Values are values here: the staged copies of the source, and the copies an
overlay owns, differ from what they copy only in who frees them.  Allocation outcomes are inputs.
-/

namespace MoqRelay

/-! ## The cache -/

/-- `moq_token_cache_entry_t`, when active. -/
structure TokenEntry where
  (aliasId tokenType : ℕ)
  value : Rcbuf
  deriving DecidableEq, Repr

/-- `MOQ_TOKEN_ENTRY_OVERHEAD`. -/
def tokenEntryOverhead : UInt64 := 16

/-- What an entry is charged, as the machine computes it. -/
def entrySize (value : Rcbuf) : UInt64 := tokenEntryOverhead + value.len

/-- `moq_token_cache_t`; `cap` is the length of `entries`. -/
structure TokenCache where
  entries : List (Option TokenEntry)
  usedBytes : UInt64 := 0
  maxBytes : UInt64
  deriving DecidableEq, Repr

/-- `MOQ_TOKEN_OK` and the errors. -/
inductive TokenResult
  | ok | duplicate | overflow | nomem | unknown
  deriving DecidableEq, Repr

namespace TokenCache

variable (c : TokenCache)

/-- `moq_token_cache_init`, with room for `maxEntries`. -/
def init (maxBytes : UInt64) (maxEntries : ℕ) : TokenCache where
  entries := List.replicate (if maxEntries = 0 then 4096 else maxEntries) none
  maxBytes := maxBytes

/-- `moq_token_cache_lookup`. -/
def lookup (aliasId : ℕ) : Option TokenEntry :=
  keyed TokenEntry.aliasId (occupied c.entries) aliasId

/-- `moq_token_cache_register`, which copies the value if its allocation succeeds. -/
def register (e : TokenEntry) (alloc : Bool) : TokenResult × TokenCache :=
  if (c.lookup e.aliasId).isSome then (.duplicate, c)
  else if entrySize e.value < tokenEntryOverhead then (.overflow, c)
  else if c.maxBytes < c.usedBytes || c.maxBytes - c.usedBytes < entrySize e.value then
    (.overflow, c)
  else
    match place e c.entries with
    | none => (.overflow, c)
    | some entries =>
      if 0 < e.value.len && !alloc then (.nomem, c)
      else (.ok, { c with entries := entries, usedBytes := c.usedBytes + entrySize e.value })

/-- `moq_token_cache_register_preowned`, which allocates nothing. -/
def registerPreowned (e : TokenEntry) : TokenResult × TokenCache := c.register e true

/-- `moq_token_cache_delete`. -/
def delete (aliasId : ℕ) : TokenResult × TokenCache :=
  match clear (fun e : TokenEntry => e.aliasId = aliasId) c.entries with
  | none => (.unknown, c)
  | some (e, entries) =>
    (.ok, { c with
        entries := entries
        usedBytes := if entrySize e.value ≤ c.usedBytes then c.usedBytes - entrySize e.value else 0
      })

end TokenCache

/-! ## The overlay -/

/-- `moq_ov_entry_t`: a register or a delete that waits for its request. -/
inductive OvEntry
  | register (e : TokenEntry)
  | delete (aliasId : ℕ)
  deriving DecidableEq, Repr

/-- The alias an overlay entry is about. -/
def OvEntry.aliasId : OvEntry → ℕ
  | .register e => e.aliasId
  | .delete aliasId => aliasId

/-- The value an overlay entry leaves its alias with. -/
def OvEntry.result : OvEntry → Option TokenEntry
  | .register e => some e
  | .delete _ => none

/-- `moq_cache_overlay_t`, oldest entry first. -/
abbrev Overlay := List OvEntry

/-- `MOQ_CACHE_OVERLAY_CAP`. -/
def cacheOverlayCap : ℕ := 16

/-- The newest entry of an alias decides; without one, what lies below does. -/
def aliasLive (below : Option TokenEntry) (ov : Overlay) (aliasId : ℕ) : Option TokenEntry :=
  match keyed OvEntry.aliasId ov.reverse aliasId with
  | some e => e.result
  | none => below

/-- `moq_ov_alias_live`. -/
def ovAliasLive (ov : Overlay) (c : TokenCache) (aliasId : ℕ) : Option TokenEntry :=
  aliasLive (c.lookup aliasId) ov aliasId

/-- `ov_alias_live_after`: an overlay over the one prepared before it, if any. -/
def ovAliasLiveAfter (c : TokenCache) (lead : Option Overlay) (ov : Overlay) (aliasId : ℕ) :
    Option TokenEntry :=
  aliasLive (match lead with
    | some lead => ovAliasLive lead c aliasId
    | none => c.lookup aliasId) ov aliasId

/-- `SIZE_MAX`. -/
def sizeMax : UInt64 := 0xFFFFFFFFFFFFFFFF

/-- A register's share of a projection, bytes and active entries. -/
def projectRegister (used : UInt64 × ℕ) (value : Rcbuf) : UInt64 × ℕ :=
  (if entrySize value < tokenEntryOverhead then sizeMax
    else if sizeMax - entrySize value < used.1 then sizeMax
    else used.1 + entrySize value, used.2 + 1)

/-- A delete's share. -/
def projectDelete (used : UInt64 × ℕ) (size : UInt64) : UInt64 × ℕ :=
  (if size ≤ used.1 then used.1 - size else 0, used.2 - 1)

section

variable (c : TokenCache)

/-- The length of the newest register of an alias, else of its cache entry. -/
def deletedLen (before : List OvEntry) (aliasId : ℕ) : UInt64 :=
  match keyed TokenEntry.aliasId (before.filterMap OvEntry.result) aliasId with
  | some e => e.value.len
  | none => ((c.lookup aliasId).map (·.value.len)).getD 0

/-- The loop of `moq_ov_project`; `before` holds the entries passed, newest first. -/
def ovProjectFrom : List OvEntry → UInt64 × ℕ → Overlay → UInt64 × ℕ
  | _, used, [] => used
  | before, used, .register e :: ov =>
    ovProjectFrom (.register e :: before) (projectRegister used e.value) ov
  | before, used, .delete aliasId :: ov =>
    ovProjectFrom (.delete aliasId :: before)
      (projectDelete used (tokenEntryOverhead + deletedLen c before aliasId)) ov

/-- `moq_ov_project`: the bytes and the entries the cache would have with the overlay applied. -/
def ovProject (ov : Overlay) : UInt64 × ℕ :=
  ovProjectFrom c [] (c.usedBytes, (occupied c.entries).length) ov

/-- The loop of `ov_project_after`; `before` holds the entries passed, oldest first. -/
def ovProjectAfterFrom (lead : Overlay) : Overlay → UInt64 × ℕ → Overlay → UInt64 × ℕ
  | _, used, [] => used
  | before, used, .register e :: ov =>
    ovProjectAfterFrom lead (before ++ [.register e]) (projectRegister used e.value) ov
  | before, used, .delete aliasId :: ov =>
    ovProjectAfterFrom lead (before ++ [.delete aliasId])
      (match ovAliasLiveAfter c (some lead) before aliasId with
        | some e => projectDelete used (entrySize e.value)
        | none => used) ov

/-- `ov_project_after`. -/
def ovProjectAfter (lead : Option Overlay) (ov : Overlay) : UInt64 × ℕ :=
  match lead with
  | none => ovProject c ov
  | some lead => ovProjectAfterFrom c lead [] (ovProject c lead) ov

end

/-! ## Resolving a request's tokens -/

/-- `moq_auth_op_t`. -/
inductive AuthOp
  | delete | register | useAlias | useValue
  deriving DecidableEq, Repr

/-- `moq_decoded_auth_token_t`. -/
structure AuthToken where
  op : AuthOp
  (aliasId tokenType : ℕ)
  value : Rcbuf
  deriving DecidableEq, Repr

/-- `moq_resolved_token_t`. -/
structure ResolvedToken where
  tokenType : ℕ
  value : Rcbuf
  deriving DecidableEq, Repr

/-- The entry a REGISTER token asks for. -/
def AuthToken.entry (tok : AuthToken) : TokenEntry := ⟨tok.aliasId, tok.tokenType, tok.value⟩

/-- The tokens resolved so far and the reject code, `0` for none. -/
structure Resolved where
  tokens : List ResolvedToken := []
  reject : ℕ := 0
  deriving DecidableEq, Repr

/-- The first reason to reject stands. -/
def Resolved.refuse (r : Resolved) (code : ℕ) : Resolved :=
  if r.reject = 0 then { r with reject := code } else r

/-- A token is resolved, unless the request is rejected already or has the same one. -/
def Resolved.accept (r : Resolved) (maxTokens : ℕ) (tok : ResolvedToken) : Resolved :=
  if r.reject ≠ 0 then r
  else if tok ∈ r.tokens then { r with reject := 0x4 }
  else if r.tokens.length < maxTokens then { r with tokens := r.tokens ++ [tok] }
  else r

/-- Resolving stops short: out of memory, or with the session closed. -/
inductive AuthFailure
  | nomem
  | closed (code : ℕ) (reason : String)
  deriving DecidableEq, Repr

/-- What the tokens of a request are resolved against. -/
structure TokenStore (σ : Type) where
  delete : σ → ℕ → Option σ
  register : σ → TokenEntry → Bool → TokenResult × σ
  lookup : σ → ℕ → Option TokenEntry

/-- What the result of a REGISTER comes to. -/
def registerOutcome (maxTokens : ℕ) (r : Resolved) (tok : AuthToken) :
    TokenResult → Except AuthFailure Resolved
  | .duplicate => .error (.closed 0x14 "duplicate auth token alias")
  | .overflow => .error (.closed 0x13 "auth token cache overflow")
  | .nomem => .error .nomem
  | _ => .ok (r.accept maxTokens ⟨tok.tokenType, tok.value⟩)

/-- The loop body of `process_auth_tokens_after`; `alloc` is the outcome of the allocation the token
makes. -/
def resolveToken {σ : Type} (st : TokenStore σ) (maxTokens : ℕ) (alloc : Bool) (s : σ)
    (r : Resolved) (tok : AuthToken) : σ × Except AuthFailure Resolved :=
  match tok.op with
  | .delete =>
    match st.delete s tok.aliasId with
    | some s => (s, .ok r)
    | none => (s, .ok (r.refuse 0x17))
  | .register =>
    let (result, s) := st.register s tok.entry alloc
    (s, registerOutcome maxTokens r tok result)
  | .useAlias =>
    if r.reject ≠ 0 then (s, .ok r)
    else
      match st.lookup s tok.aliasId with
      | none => (s, .ok (r.refuse 0x17))
      | some e =>
        if 0 < e.value.len && !alloc then (s, .error .nomem)
        else (s, .ok (r.accept maxTokens ⟨e.tokenType, e.value⟩))
  | .useValue => (s, .ok (r.accept maxTokens ⟨tok.tokenType, tok.value⟩))

/-- The loop; `alloc i` is for the `i`-th token. -/
def resolveTokens {σ : Type} (st : TokenStore σ) (maxTokens : ℕ) (alloc : ℕ → Bool) :
    ℕ → σ → Resolved → List AuthToken → σ × Except AuthFailure Resolved
  | _, s, r, [] => (s, .ok r)
  | i, s, r, tok :: toks =>
    match resolveToken st maxTokens (alloc i) s r tok with
    | (s, .ok r) => resolveTokens st maxTokens alloc (i + 1) s r toks
    | (s, .error f) => (s, .error f)

/-- Without a transaction: the cache itself. -/
def directStore : TokenStore TokenCache where
  delete c aliasId :=
    match c.delete aliasId with
    | (.ok, c) => some c
    | _ => none
  register := TokenCache.register
  lookup := TokenCache.lookup

/-- An overlay that still has room takes another entry. -/
def Overlay.push (ov : Overlay) (e : OvEntry) : Overlay :=
  if ov.length < cacheOverlayCap then ov ++ [e] else ov

/-- A REGISTER in a transaction: nothing is allocated yet. -/
def stageRegister (c : TokenCache) (lead : Option Overlay) (ov : Overlay) (e : TokenEntry) :
    TokenResult × Overlay :=
  let projected := ovProjectAfter c lead ov
  if (ovAliasLiveAfter c lead ov e.aliasId).isSome then (.duplicate, ov)
  else if entrySize e.value < tokenEntryOverhead || c.maxBytes < projected.1 ||
      c.maxBytes - projected.1 < entrySize e.value || c.entries.length ≤ projected.2 then
    (.overflow, ov)
  else (.ok, ov.push (.register e))

/-- In a transaction: the cache below, the overlay prepared before, the overlay of this one. -/
def txnStore (c : TokenCache) (lead : Option Overlay) : TokenStore Overlay where
  delete ov aliasId :=
    if (ovAliasLiveAfter c lead ov aliasId).isSome then some (ov.push (.delete aliasId)) else none
  register ov e _ := stageRegister c lead ov e
  lookup ov aliasId := ovAliasLiveAfter c lead ov aliasId

/-- `process_auth_tokens_after` without a transaction. -/
def processTokens (maxTokens : ℕ) (alloc : ℕ → Bool) (c : TokenCache) (toks : List AuthToken) :
    TokenCache × Except AuthFailure Resolved :=
  resolveTokens directStore maxTokens alloc 0 c {} toks

/-- The value copies of the staged registers are allocated, `own j` for the `j`-th entry. -/
def ownValues (own : ℕ → Bool) (ov : Overlay) : Bool :=
  ov.zipIdx.all fun e => (e.1.result.map (·.value.len)).all (· = 0) || own e.2

/-- `process_auth_tokens_after` in a transaction. -/
def prepareTxn (c : TokenCache) (lead : Option Overlay) (maxTokens : ℕ) (alloc own : ℕ → Bool)
    (toks : List AuthToken) : Except AuthFailure (Overlay × Resolved) :=
  match resolveTokens (txnStore c lead) maxTokens alloc 0 [] {} toks with
  | (ov, .ok r) => if ownValues own ov then .ok (ov, r) else .error .nomem
  | (_, .error f) => .error f

/-- One entry of `process_auth_tokens_commit_txn`. -/
def TokenCache.apply (c : TokenCache) : OvEntry → TokenResult × TokenCache
  | .register e => c.registerPreowned e
  | .delete aliasId => c.delete aliasId

/-- `process_auth_tokens_commit_txn`. -/
def TokenCache.commit (c : TokenCache) (ov : Overlay) : TokenCache :=
  ov.foldl (fun c e => (c.apply e).2) c

/-- What the entries of a commit return, in order. -/
def TokenCache.commitResults : TokenCache → Overlay → List TokenResult
  | _, [] => []
  | c, e :: ov => (c.apply e).1 :: (c.apply e).2.commitResults ov

/-! ## Runs -/

/-- What happens to the cache of a session: an entry registered or deleted on its own, a request's
tokens resolved on the cache, or in a transaction that is committed or aborted, or in one prepared
after a first and committed, if at all, after it. -/
inductive TokenStep
  | register (e : TokenEntry) (alloc : Bool)
  | delete (aliasId : ℕ)
  | process (maxTokens : ℕ) (alloc : ℕ → Bool) (toks : List AuthToken)
  | transact (commit : Bool) (maxTokens : ℕ) (alloc own : ℕ → Bool) (toks : List AuthToken)
  | transactAfter (commit commit' : Bool) (maxTokens : ℕ) (alloc own alloc' own' : ℕ → Bool)
    (first toks : List AuthToken)

/-- `process_auth_tokens_abort_txn` frees what the overlay owns and touches nothing else. -/
def TokenCache.abort (c : TokenCache) (_ : Overlay) : TokenCache := c

/-- A prepared transaction is committed or aborted. -/
def TokenCache.settle (c : TokenCache) (commit : Bool) (ov : Overlay) : TokenCache :=
  if commit then c.commit ov else c.abort ov

/-- One step. -/
def TokenCache.step (c : TokenCache) : TokenStep → TokenCache
  | .register e alloc => (c.register e alloc).2
  | .delete aliasId => (c.delete aliasId).2
  | .process maxTokens alloc toks => (processTokens maxTokens alloc c toks).1
  | .transact commit maxTokens alloc own toks =>
    match prepareTxn c none maxTokens alloc own toks with
    | .ok (ov, _) => c.settle commit ov
    | _ => c
  | .transactAfter commit commit' maxTokens alloc own alloc' own' first toks =>
    match prepareTxn c none maxTokens alloc own first with
    | .ok (lead, _) =>
      match prepareTxn c (some lead) maxTokens alloc' own' toks with
      | .ok (ov, _) => (c.settle commit lead).settle (commit && commit') ov
      | _ => c
    | _ => c

/-- The cache after some steps. -/
def tokenCacheRun (maxBytes : UInt64) (maxEntries : ℕ) (steps : List TokenStep) : TokenCache :=
  steps.foldl TokenCache.step (.init maxBytes maxEntries)

end MoqRelay
