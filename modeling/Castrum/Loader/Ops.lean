import Castrum.Util.Bytes
import Mathlib.Data.List.Nodup
import Mathlib.Tactic

/-!
# Castrum — the operations of the loader (`src/loader/ops.ts`, `src/loader/index.ts`)

The names of the registry, which of them have the zero-alloc `fast` wiring, which need extra
arguments and cannot be loaded, and the cache keys: the name of the op, a NUL and either the key
of the caller or the FNV-1a hash of the input in decimal.

* `cacheKey_inj` — the op and the rest of a cache key can be told apart.
-/

namespace Castrum.Loader

/-- `LoaderOpName`. -/
inductive LoaderOpName where
  | crc32 | fnv1a64 | jsonValid | jsonSumIds | validateEmail | validateUuid | validateIpv4
  | validateIpv6 | queryParse | cookieParse | formParse | httpParseRequest | hexEncode | hexDecode
  | base64Encode | base64Decode | base64UrlEncode | base64UrlDecode | gzipCompress | gzipDecompress
  | brotliCompress | brotliDecompress | etag | urlEncode | urlDecode | urlDecodeBytes | wsAcceptKey
  | mimeFromExtension | signCookie | verifyCookie | csrfVerify | passwordHash | passwordVerify
  | hmacSha256 | hmacSha256Verify | aeadEncrypt | aeadDecrypt | jwtSign | jwtVerify | jsonPatch
  | urlResolve | wsFrameEncode | sseEncode | schemaValidate
  deriving DecidableEq

namespace LoaderOpName

def name : LoaderOpName → String
  | crc32 => "crc32" | fnv1a64 => "fnv1a64" | jsonValid => "jsonValid" | jsonSumIds => "jsonSumIds"
  | validateEmail => "validateEmail" | validateUuid => "validateUuid"
  | validateIpv4 => "validateIpv4" | validateIpv6 => "validateIpv6" | queryParse => "queryParse"
  | cookieParse => "cookieParse" | formParse => "formParse"
  | httpParseRequest => "httpParseRequest" | hexEncode => "hexEncode" | hexDecode => "hexDecode"
  | base64Encode => "base64Encode" | base64Decode => "base64Decode"
  | base64UrlEncode => "base64UrlEncode" | base64UrlDecode => "base64UrlDecode"
  | gzipCompress => "gzipCompress" | gzipDecompress => "gzipDecompress"
  | brotliCompress => "brotliCompress" | brotliDecompress => "brotliDecompress" | etag => "etag"
  | urlEncode => "urlEncode" | urlDecode => "urlDecode" | urlDecodeBytes => "urlDecodeBytes"
  | wsAcceptKey => "wsAcceptKey" | mimeFromExtension => "mimeFromExtension"
  | signCookie => "signCookie" | verifyCookie => "verifyCookie" | csrfVerify => "csrfVerify"
  | passwordHash => "passwordHash" | passwordVerify => "passwordVerify"
  | hmacSha256 => "hmacSha256" | hmacSha256Verify => "hmacSha256Verify"
  | aeadEncrypt => "aeadEncrypt" | aeadDecrypt => "aeadDecrypt" | jwtSign => "jwtSign"
  | jwtVerify => "jwtVerify" | jsonPatch => "jsonPatch" | urlResolve => "urlResolve"
  | wsFrameEncode => "wsFrameEncode" | sseEncode => "sseEncode"
  | schemaValidate => "schemaValidate"

/-- `LOADER_OP_NAMES`. -/
def all : List LoaderOpName :=
  [crc32, fnv1a64, jsonValid, jsonSumIds, validateEmail, validateUuid, validateIpv4, validateIpv6,
    queryParse, cookieParse, formParse, httpParseRequest, hexEncode, hexDecode, base64Encode,
    base64Decode, base64UrlEncode, base64UrlDecode, gzipCompress, gzipDecompress, brotliCompress,
    brotliDecompress, etag, urlEncode, urlDecode, urlDecodeBytes, wsAcceptKey, mimeFromExtension,
    signCookie, verifyCookie, csrfVerify, passwordHash, passwordVerify, hmacSha256,
    hmacSha256Verify, aeadEncrypt, aeadDecrypt, jwtSign, jwtVerify, jsonPatch, urlResolve,
    wsFrameEncode, sseEncode, schemaValidate]

/-- `spec.fast !== undefined`. -/
def fast : LoaderOpName → Bool
  | crc32 | fnv1a64 | jsonValid | jsonSumIds | validateEmail | validateUuid | validateIpv4
  | validateIpv6 => true
  | _ => false

/-- `hasRequiredRest`. -/
def hasRequiredRest : LoaderOpName → Bool
  | signCookie | verifyCookie | csrfVerify | passwordHash | passwordVerify | hmacSha256
  | hmacSha256Verify | aeadEncrypt | aeadDecrypt | jwtSign | jwtVerify | jsonPatch | urlResolve
  | wsFrameEncode | schemaValidate => true
  | _ => false

theorem mem_all (op : LoaderOpName) : op ∈ all := by
  cases op <;> decide

theorem name_injective : Function.Injective name := by
  have hnodup : (all.map name).Nodup := by decide +kernel
  intro op op' h
  exact List.inj_on_of_nodup_map hnodup op.mem_all op'.mem_all h

/-- `KEY_SEP` never appears in a name. -/
theorem name_no_sep (op : LoaderOpName) : '\x00' ∉ op.name.toList := by
  cases op <;> decide +kernel

end LoaderOpName

/-- `fnv1a64_continue`. -/
def fnv1a64Continue (hash : UInt64) (input : Bytes) : UInt64 :=
  input.foldl (fun hash b => (hash ^^^ b.toUInt64) * 0x100000001b3) hash

/-- `fnv1a64_bytes`. -/
def fnv1a64Bytes (input : Bytes) : UInt64 := fnv1a64Continue 0xcbf29ce484222325 input

/-- `op + KEY_SEP + raw`. -/
def cacheKey (op : LoaderOpName) (raw : String) : String := op.name ++ "\x00" ++ raw

/-- The key of a load without one: the hash of the input, as a decimal string. -/
def defaultRaw (input : Bytes) : String := toString (fnv1a64Bytes input).toNat

/-- The first separator ends what has none. -/
theorem append_sep_inj {α : Type} {sep : α} {xs ys us vs : List α} (hxs : sep ∉ xs) (hys : sep ∉ ys)
    (h : xs ++ sep :: us = ys ++ sep :: vs) : xs = ys ∧ us = vs := by
  induction xs generalizing ys with
  | nil =>
    cases ys with
    | nil => exact ⟨rfl, (List.cons.inj h).2⟩
    | cons y ys => exact absurd (List.cons.inj h).1 fun hy => hys (hy ▸ List.mem_cons_self)
  | cons x xs ih =>
    cases ys with
    | nil => exact absurd (List.cons.inj h).1 fun hx => hxs (hx ▸ List.mem_cons_self)
    | cons y ys =>
      obtain ⟨hhead, htail⟩ := List.cons.inj h
      obtain ⟨hxy, huv⟩ := ih (fun hmem => hxs (List.mem_cons_of_mem x hmem))
        (fun hmem => hys (List.mem_cons_of_mem y hmem)) htail
      exact ⟨by rw [hhead, hxy], huv⟩

theorem cacheKey_inj {op op' : LoaderOpName} {raw raw' : String} :
    cacheKey op raw = cacheKey op' raw' ↔ op = op' ∧ raw = raw' := by
  constructor
  · intro h
    have hlist := congrArg String.toList h
    simp only [cacheKey, String.toList_append, List.append_assoc] at hlist
    -- neither name has a NUL, so the first one ends it
    have hsplit := append_sep_inj op.name_no_sep op'.name_no_sep hlist
    exact ⟨LoaderOpName.name_injective (String.toList_inj.mp hsplit.1),
      String.toList_inj.mp hsplit.2⟩
  · rintro ⟨rfl, rfl⟩
    rfl

end Castrum.Loader
