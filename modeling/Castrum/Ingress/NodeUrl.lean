import Castrum.Lib.WhatwgUrl
import Castrum.Util.Str

/-!
# Castrum — the URL of a Node request (`src/ingress/server-node.ts`)

`nodeRequestToWebRequest` resolves the request target against `http://` and the `Host` header. A target
that begins with two slashes is a reference with an authority of its own.

* `HostHeader` — a header that is a host and perhaps a port, and nothing more;
* `nodeRequestUrl_keeps_iff` — the targets that stay a path;
* `nodeRequestUrl_evil` — one that becomes the host.
-/

namespace Castrum

open Whatwg

/-- A `Host` header: nothing in it ends an authority or gives credentials, and it parses. -/
structure HostHeader {H : Type} (hostParser : Str → Option H) where
  text : Str
  host : H
  port : Option Nat
  plain : ∀ c ∈ text, endsAuthority c = false ∧ c ≠ '@' ∧ isC0OrSpace c = false
  parsed : parseHost hostParser text = some (host, port)

/-- `new URL(req.url ?? '/', 'http://' + host)`. -/
def nodeRequestUrl {H : Type} (hostParser : Str → Option H) (host : HostHeader hostParser)
    (target : Option Str) : Option (UrlRecord H) := do
  let base ← authorityState hostParser host.text
  resolveRooted hostParser (base.host, base.port) (target.getD ['/'])

/-- The URL has the host of the header, and the target as its path and query. -/
structure KeepsTarget {H : Type} {hostParser : Str → Option H} (header : HostHeader hostParser)
    (target : Str) (url : UrlRecord H) : Prop where
  host : url.host = header.host
  port : url.port = header.port
  credentials : url.username = [] ∧ url.password = []
  path : url.path = normalPath (clean target).tail
  query : url.query = normalQuery (clean target).tail

section

variable {H : Type} {hostParser : Str → Option H} {target : Str}

/-- A slash at the front is neither stripped nor removed. -/
theorem clean_slash (s : Str) : ∃ t, clean ('/' :: s) = '/' :: t := by
  have hdrop : (s.reverse ++ ['/']).dropWhile isC0OrSpace = s.reverse.dropWhile isC0OrSpace ++ ['/'] := by
    rw [List.dropWhile_append]
    split
    · next hempty =>
      rw [List.isEmpty_iff.mp hempty]
      rfl
    · rfl
  rw [clean, List.dropWhile_cons_of_neg (by decide), List.reverse_cons, hdrop, List.reverse_append]
  exact ⟨_, List.filter_cons_of_pos (by decide)⟩

/-- The base is the header. -/
theorem authorityState_host (host : HostHeader hostParser) :
    authorityState hostParser host.text = some ⟨[], [], host.host, host.port, [[]], none⟩ := by
  have hall : ∀ c ∈ host.text, (!endsAuthority c) = true := fun c hc => by
    rw [(host.plain c hc).1]
    rfl
  have hat : '@' ∉ host.text := fun hc => (host.plain '@' hc).2.1 rfl
  rw [authorityState, List.takeWhile_eq_self_iff.mpr hall, List.dropWhile_eq_nil_iff.mpr hall,
    splitCredentials, if_neg hat]
  dsimp only
  rw [host.parsed]
  rfl

theorem nodeRequestUrl_eq (host : HostHeader hostParser) (target : Str) :
    nodeRequestUrl hostParser host (some target) =
      resolveRooted hostParser (host.host, host.port) target := by
  rw [nodeRequestUrl, authorityState_host]
  rfl

/-- The header `localhost`, with a port. -/
def localhost {h : H} (hlocal : hostParser "localhost".toList = some h) (digits : Str) (port : Nat)
    (hdigits : ∀ c ∈ digits, endsAuthority c = false ∧ c ≠ '@' ∧ isC0OrSpace c = false)
    (hport : portState digits = some (some port)) : HostHeader hostParser where
  text := "localhost".toList ++ ':' :: digits
  host := h
  port := some port
  plain c hc := by
    rcases List.mem_append.mp hc with hc | hc
    · exact (show ∀ c ∈ "localhost".toList, endsAuthority c = false ∧ c ≠ '@' ∧ isC0OrSpace c = false by
        decide) c hc
    · rcases List.mem_cons.mp hc with rfl | hc
      · decide
      · exact hdigits c hc
  parsed := by
    rw [parseHost_plain (by decide) (by decide) hlocal, hport]
    rfl

/-- **The target stays a path** for every `Host` header if and only if it does not begin with two slashes,
of either kind, once tabs and newlines are gone. -/
theorem nodeRequestUrl_keeps_iff (hostParser : Str → Option H)
    (hlocal : hostParser "localhost".toList ≠ none) (target : Str)
    (htarget : target.head? = some '/') :
    (∀ host : HostHeader hostParser, ∃ url, nodeRequestUrl hostParser host (some target) = some url ∧
      KeepsTarget host target url) ↔ ∀ c, (clean target)[1]? = some c → isSlash c = false := by
  obtain ⟨s, rfl⟩ : ∃ s, target = '/' :: s := by
    cases target with
    | nil => exact nomatch htarget
    | cons c s => exact ⟨s, by rw [Option.some.inj htarget]⟩
  obtain ⟨t, ht⟩ := clean_slash s
  constructor
  · rintro h c hc
    rw [ht] at hc
    cases t with
    | nil => exact nomatch hc
    | cons d t =>
      cases hc
      by_contra hslash
      rw [Bool.not_eq_false] at hslash
      -- the same URL for two headers that differ in their ports
      obtain ⟨host, hhost⟩ := Option.ne_none_iff_exists'.mp hlocal
      have hport : ∀ (digits : Str) (port : Nat)
          (hdigits : ∀ c ∈ digits, endsAuthority c = false ∧ c ≠ '@' ∧ isC0OrSpace c = false)
          (hport : portState digits = some (some port)),
          ∃ url, authorityState hostParser (t.dropWhile isSlash) = some url ∧ url.port = some port := by
        rintro digits port hdigits hport
        obtain ⟨url, hurl, hkeeps⟩ := h (localhost hhost digits port hdigits hport)
        rw [nodeRequestUrl_eq, resolveRooted_of_authority ht rfl hslash] at hurl
        exact ⟨url, hurl, hkeeps.port⟩
      obtain ⟨url₁, h₁, hport₁⟩ := hport ['8', '1'] 81 (by decide) (by decide)
      obtain ⟨url₂, h₂, hport₂⟩ := hport ['8', '2'] 82 (by decide) (by decide)
      cases h₁.symm.trans h₂
      exact absurd (hport₁.symm.trans hport₂) (by decide)
  · rintro h host
    have hfirst : ∀ d ∈ t.head?, isSlash d = false := fun d hd => by
      refine h d ?_
      rw [ht]
      cases t with
      | nil => exact nomatch hd
      | cons e t => exact hd
    rw [nodeRequestUrl_eq, resolveRooted_of_path ht rfl hfirst]
    exact ⟨_, rfl, rfl, rfl, ⟨rfl, rfl⟩, by rw [ht]; rfl, by rw [ht]; rfl⟩

theorem nodeRequestUrl_keeps_users :
    (some "localhost".toList ≠ none ∧ "/users?id=1".toList.head? = some '/') ∧
      ((∀ host : HostHeader (H := Str) some, ∃ url,
        nodeRequestUrl some host (some "/users?id=1".toList) = some url ∧
          KeepsTarget host "/users?id=1".toList url) ↔
        ∀ c, (clean "/users?id=1".toList)[1]? = some c → isSlash c = false) :=
  ⟨by decide, nodeRequestUrl_keeps_iff some (by decide) _ (by decide)⟩

/-- The target `//evil/x` names the host `evil`, whatever the header says. -/
theorem nodeRequestUrl_evil : ¬ ∀ host : HostHeader (H := Str) some, ∃ url,
    nodeRequestUrl some host (some "//evil/x".toList) = some url ∧
      KeepsTarget host "//evil/x".toList url := by
  intro h
  obtain ⟨url, hurl, hkeeps⟩ := h (localhost rfl ['8', '1'] 81 (by decide) (by decide))
  have hevil : nodeRequestUrl some (localhost rfl ['8', '1'] 81 (by decide) (by decide))
      (some "//evil/x".toList) = some ⟨[], [], "evil".toList, none, [['x']], none⟩ := by
    rw [nodeRequestUrl_eq]
    decide
  cases hevil.symm.trans hurl
  exact absurd hkeeps.host (by decide)

end

end Castrum
