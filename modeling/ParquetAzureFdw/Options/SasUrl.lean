/-
# Hosts that a SAS URL may name

`validate_sas_url` and `is_private_or_link_local` of `src/fdw/options.rs`, the list
`ALLOWED_ENDPOINT_SUFFIXES` they check against, and the user mapping that carries the
URL.  A SAS URL is a credential: it must not be sent to a host that is not Azure's, save
an Azurite on this machine.

The list has the domains of Azure storage and, for the option `endpoint`, the two
addresses of Azurite with their port.  `validate_sas_url` cuts the ports off and takes
all of them as suffixes, so that it accepts any host below `localhost` as well.  That is
the only way out (`sas_host_confined_iff`): an address is accepted only if it is
127.0.0.1, and without https only a loopback name.
-/

import ParquetAzureFdw.Options.Table

namespace ParquetAzureFdw

/-! ### Addresses and URLs -/

/-- `std::net::IpAddr`. -/
inductive IpAddr where
  | v4 (a b c d : UInt8)
  | v6 (segments : Vector UInt16 8)
  deriving DecidableEq

/-- `url::Host`. -/
inductive Host where
  | domain (name : String)
  | ip (addr : IpAddr)
  deriving DecidableEq

/-- What is read of a `url::Url`. -/
structure Url where
  scheme : String
  host : Option Host
  deriving DecidableEq

/-- The `url` crate and the addresses of the standard library. -/
structure UrlCrate where
  /-- `Url::parse`, with the text of its error. -/
  parse : String → Except String Url
  /-- The text of an IPv6 address. -/
  ipv6Text : Vector UInt16 8 → String
  /-- `str::parse::<IpAddr>`. -/
  parseIp : String → Option IpAddr

/-- The text of an IPv4 address. -/
def dotted (a b c d : UInt8) : String :=
  toString a.toNat ++ "." ++ toString b.toNat ++ "." ++ toString c.toNat ++ "." ++ toString d.toNat

/-- The text of a host; an IPv6 address is in brackets. -/
def Host.text (crate : UrlCrate) : Host → String
  | .domain name => name
  | .ip (.v4 a b c d) => dotted a b c d
  | .ip (.v6 segments) => "[" ++ crate.ipv6Text segments ++ "]"

/-- `host_str`, in lower case. -/
def Url.hostText (crate : UrlCrate) (url : Url) : Option String :=
  url.host.map fun host => asciiLowercase (host.text crate)

/-! ### The checks -/

/-- The domains of Azure storage in `ALLOWED_ENDPOINT_SUFFIXES`. -/
def azureDomains : List String :=
  ["blob.core.windows.net", "dfs.core.windows.net",
    "blob.core.chinacloudapi.cn", "dfs.core.chinacloudapi.cn",
    "blob.core.usgovcloudapi.net", "dfs.core.usgovcloudapi.net",
    "blob.core.cloudapi.de", "dfs.core.cloudapi.de"]

/-- `ALLOWED_ENDPOINT_SUFFIXES`. -/
def allowedEndpointSuffixes : List String :=
  azureDomains ++ ["127.0.0.1:10000", "localhost:10000"]

/-- The names of the loopback that are let through. -/
def loopbackNames : List String := ["127.0.0.1", "::1", "localhost"]

/-- The addresses that `is_private_or_link_local` refuses. -/
def IpAddr.isPrivateOrLinkLocal : IpAddr → Bool
  | .v4 a b c d =>
    a == 127 || (a == 169 && b == 254) ||
      (a == 10 || (a == 172 && 16 ≤ b && b ≤ 31) || (a == 192 && b == 168)) ||
      (a == 0 && b == 0 && c == 0 && d == 0) || (a == 255 && b == 255 && c == 255 && d == 255) ||
      (224 ≤ a && a ≤ 239) || (a == 100 && 64 ≤ b && b < 128)
  | .v6 segments =>
    segments == #v[0, 0, 0, 0, 0, 0, 0, 1] || segments == #v[0, 0, 0, 0, 0, 0, 0, 0] ||
      segments[0] &&& 0xff00 == 0xff00 || segments[0] &&& 0xffc0 == 0xfe80 ||
      segments[0] &&& 0xfe00 == 0xfc00

/-- `is_private_or_link_local`. -/
def isPrivateOrLinkLocal (crate : UrlCrate) (host : String) : Bool :=
  match crate.parseIp host with
  | none => false
  | some ip => ip.isPrivateOrLinkLocal

/-- An allowed suffix in lower case, without its port. -/
def bareSuffix (sfx : String) : String :=
  String.ofList ((asciiLowercase sfx).toList.takeWhile (· ≠ ':'))

/-- The host is the domain, or a name below it. -/
def atOrBelow (host domain : String) : Prop :=
  host = domain ∨ ("." ++ domain).toList <:+ host.toList

instance (host domain : String) : Decidable (atOrBelow host domain) :=
  inferInstanceAs (Decidable (_ ∨ _))

/-- `validate_sas_url`. -/
def validateSasUrl (crate : UrlCrate) (sas : String) : FdwResult Unit :=
  match crate.parse sas with
  | .error e => .error (.invalidOption ("sas_url is not a valid URL: " ++ e))
  | .ok url =>
    match url.hostText crate with
    | none => .error (.invalidOption "sas_url has no host")
    | some host =>
      let isLoopback := host ∈ loopbackNames
      if url.scheme ≠ "https" ∧ ¬ (url.scheme = "http" ∧ isLoopback) then
        .error (.invalidOption ("sas_url must use https (got scheme '" ++ url.scheme ++ "')"))
      else if ¬ isLoopback ∧ isPrivateOrLinkLocal crate host = true then
        .error (.invalidOption ("sas_url host '" ++ host ++
          "' is private/link-local — refusing to send credentials there"))
      else if isLoopback ∨ ∃ sfx ∈ allowedEndpointSuffixes, atOrBelow host (bareSuffix sfx) then .ok ()
      else .error (.invalidOption ("sas_url host '" ++ host ++ "' is not an Azure storage host"))

/-! ### What is accepted -/

/-- The allowed suffixes without their ports. -/
theorem map_bareSuffix :
    allowedEndpointSuffixes.map bareSuffix = azureDomains ++ ["127.0.0.1", "localhost"] := by
  decide +kernel

section Accepted

variable {crate : UrlCrate} {sas : String}

/-- An accepted URL: a loopback name, or with https a host at or below an allowed suffix. -/
theorem validateSasUrl_eq_ok (h : validateSasUrl crate sas = .ok ()) :
    ∃ url host, crate.parse sas = .ok url ∧ url.hostText crate = some host ∧
      (host ∈ loopbackNames ∨ url.scheme = "https" ∧
        ∃ domain ∈ azureDomains ++ ["127.0.0.1", "localhost"], atOrBelow host domain) := by
  unfold validateSasUrl at h
  cases hparse : crate.parse sas with
  | error e => simp [hparse] at h
  | ok url =>
    cases hhost : url.hostText crate with
    | none => simp [hparse, hhost] at h
    | some host =>
      simp only [hparse, hhost] at h
      split_ifs at h with hscheme hprivate hallowed
      refine ⟨url, host, rfl, hhost, ?_⟩
      rcases hallowed with hloop | ⟨sfx, hsfx, hbelow⟩
      · exact .inl hloop
      by_cases hloop : host ∈ loopbackNames
      · exact .inl hloop
      · refine .inr ⟨?_, bareSuffix sfx, map_bareSuffix ▸ List.mem_map_of_mem hsfx, hbelow⟩
        by_contra hhttps
        exact hscheme ⟨hhttps, fun hhttp => hloop hhttp.2⟩

/-- With https, a host at or below an allowed suffix is accepted unless it is a private address. -/
theorem validateSasUrl_of_below {url : Url} {host sfx : String} (hparse : crate.parse sas = .ok url)
    (hhost : url.hostText crate = some host) (hhttps : url.scheme = "https")
    (hpublic : isPrivateOrLinkLocal crate host = false) (hsfx : sfx ∈ allowedEndpointSuffixes)
    (hbelow : atOrBelow host (bareSuffix sfx)) : validateSasUrl crate sas = .ok () := by
  simp only [validateSasUrl, hparse, hhost]
  rw [if_neg (fun h => h.1 hhttps), if_neg (fun h => by rw [hpublic] at h; exact Bool.false_ne_true h.2),
    if_pos (.inr ⟨sfx, hsfx, hbelow⟩)]

/-! ### Addresses -/

theorem toList_dotted (a b c d : UInt8) : (dotted a b c d).toList =
    Nat.toDigits 10 a.toNat ++ '.' :: (Nat.toDigits 10 b.toNat ++ '.' ::
      (Nat.toDigits 10 c.toNat ++ '.' :: Nat.toDigits 10 d.toNat)) := by
  simp [dotted, ToString.toString, Nat.toList_repr]

theorem isDigit_of_mem_decimal {n : ℕ} {ch : Char} (h : ch ∈ Nat.toDigits 10 n) :
    ch.isDigit = true :=
  Nat.isDigit_of_mem_toDigits (by decide) (by decide) h

/-- A dotted address has digits and dots. -/
theorem digit_or_dot_of_mem_dotted {a b c d : UInt8} {ch : Char}
    (h : ch ∈ (dotted a b c d).toList) : ch.isDigit = true ∨ ch = '.' := by
  rw [toList_dotted] at h
  simp only [List.mem_append, List.mem_cons] at h
  rcases h with h | rfl | h | rfl | h | rfl | h
  · exact .inl (isDigit_of_mem_decimal h)
  · exact .inr rfl
  · exact .inl (isDigit_of_mem_decimal h)
  · exact .inr rfl
  · exact .inl (isDigit_of_mem_decimal h)
  · exact .inr rfl
  · exact .inl (isDigit_of_mem_decimal h)

/-- A dotted address has three dots. -/
theorem count_dot_dotted (a b c d : UInt8) : (dotted a b c d).toList.count '.' = 3 := by
  have hnone : ∀ n : ℕ, (Nat.toDigits 10 n).count '.' = 0 := by
    intro n
    rw [List.count_eq_zero]
    intro hdot
    exact absurd (isDigit_of_mem_decimal hdot) (by decide)
  simp [toList_dotted, hnone]

theorem toLower_of_isDigit {ch : Char} (h : ch.isDigit = true) : ch.toLower = ch := by
  simp only [Char.isDigit, Bool.and_eq_true, decide_eq_true_eq] at h
  refine dif_neg ?_
  rintro ⟨hupper, -⟩
  have hle : ch.val.toNat ≤ 57 := h.2
  have hge : 65 ≤ ch.val.toNat := hupper
  omega

theorem asciiLowercase_dotted (a b c d : UInt8) :
    asciiLowercase (dotted a b c d) = dotted a b c d := by
  have hsame : (dotted a b c d).toList.map Char.toLower = (dotted a b c d).toList.map id := by
    refine List.map_congr_left fun ch hch => ?_
    rcases digit_or_dot_of_mem_dotted hch with hdigit | rfl
    · exact toLower_of_isDigit hdigit
    · rfl
  rw [asciiLowercase, hsame, List.map_id, String.ofList_toList]

/-- The characters of a domain are among those of a host at or below it, and end it. -/
theorem atOrBelow.suffix {host domain : String} (h : atOrBelow host domain) :
    domain.toList <:+ host.toList := by
  rcases h with rfl | h
  · exact List.suffix_rfl
  · rw [String.toList_append] at h
    exact (List.suffix_append _ _).trans h

/-- Every allowed name but 127.0.0.1 has a letter or a colon. -/
theorem not_digits_of_mem_names {domain : String} (h : domain ∈ loopbackNames ++ azureDomains) :
    domain = "127.0.0.1" ∨ domain.toList.any (fun ch => !(ch.isDigit || ch == '.')) = true := by
  have hnames : ∀ name ∈ loopbackNames ++ azureDomains, name = "127.0.0.1" ∨
      name.toList.any (fun ch => !(ch.isDigit || ch == '.')) = true := by decide +kernel
  exact hnames domain h

/-- No allowed name ends in a bracket. -/
theorem getLast?_ne_of_mem_names {domain : String} (h : domain ∈ loopbackNames ++ azureDomains) :
    domain.toList.getLast? ≠ some ']' ∧ domain.toList ≠ [] := by
  have hnames : ∀ name ∈ loopbackNames ++ azureDomains,
      name.toList.getLast? ≠ some ']' ∧ name.toList ≠ [] := by decide +kernel
  exact hnames domain h

/-- **An address that is accepted is 127.0.0.1**: a dotted address has too few dots to lie below
another, and a bracket ends no allowed name. -/
theorem host_eq_of_ip {url : Url} {host : String} {ip : IpAddr} (hip : url.host = some (.ip ip))
    (hhost : url.hostText crate = some host)
    (hnamed : ∃ domain ∈ loopbackNames ++ azureDomains, atOrBelow host domain) :
    host = "127.0.0.1" := by
  obtain ⟨domain, hdomain, hbelow⟩ := hnamed
  rw [Url.hostText, hip, Option.map_some, Option.some.injEq] at hhost
  cases ip with
  | v4 a b c d =>
    rw [Host.text, asciiLowercase_dotted] at hhost
    rcases not_digits_of_mem_names hdomain with rfl | hany
    · rcases hbelow with heq | hbelow
      · exact heq
      · have hcount := hbelow.sublist.count_le '.'
        rw [← hhost, count_dot_dotted] at hcount
        exact absurd hcount (by decide)
    · obtain ⟨ch, hch, hno⟩ := List.any_eq_true.mp hany
      have hmem : ch ∈ (dotted a b c d).toList := hhost ▸ hbelow.suffix.subset hch
      rcases digit_or_dot_of_mem_dotted hmem with hdigit | hdot
      · simp [hdigit] at hno
      · simp [hdot] at hno
  | v6 segments =>
    obtain ⟨hlast, hne⟩ := getLast?_ne_of_mem_names hdomain
    obtain ⟨front, hfront⟩ := hbelow.suffix
    have hbracket : host.toList.getLast? = some ']' := by
      rw [← hhost]
      simp only [Host.text, asciiLowercase, String.toList_append, String.toList_ofList,
        List.map_append]
      exact List.getLast?_concat
    rw [← hfront, List.getLast?_append_of_ne_nil _ hne] at hbracket
    exact absurd hbracket hlast

end Accepted

/-! ### Confinement -/

/-- The ranges that no credential may be sent to: private, link-local and loopback. -/
def IpAddr.Internal : IpAddr → Prop
  | .v4 a b _ _ => a = 10 ∨ a = 172 ∧ b.toNat / 16 = 1 ∨ a = 192 ∧ b = 168 ∨ a = 169 ∧ b = 254 ∨ a = 127
  | .v6 segments => segments[0].toNat / 2 ^ 9 = 0xfc00 / 2 ^ 9 ∨
      segments[0].toNat / 2 ^ 6 = 0xfe80 / 2 ^ 6 ∨ segments = #v[0, 0, 0, 0, 0, 0, 0, 1]

/-- The host is one that a SAS URL may name. -/
structure Confined (url : Url) (host : String) : Prop where
  named : host ∈ loopbackNames ∨ ∃ domain ∈ azureDomains, atOrBelow host domain
  notInternal : ∀ ip, url.host = some (.ip ip) → ip.Internal → host ∈ loopbackNames
  secure : url.scheme = "https" ∨ host ∈ loopbackNames

/-- Nothing at or below a domain of Azure is below a name of Azurite. -/
theorem not_below_azurite {host domain : String} (hdomain : domain ∈ azureDomains)
    (h : atOrBelow host domain) :
    ¬ ".localhost".toList <:+ host.toList ∧ ¬ ".127.0.0.1".toList <:+ host.toList := by
  have hneither : ∀ name ∈ [".localhost", ".127.0.0.1"], ∀ d ∈ azureDomains,
      ¬ name.toList <:+ d.toList ∧ ¬ d.toList <:+ name.toList := by decide +kernel
  -- Of two endings of the host one is an ending of the other.
  have hnot : ∀ name ∈ [".localhost", ".127.0.0.1"], ¬ name.toList <:+ host.toList := by
    intro name hname hbelow
    obtain ⟨hleft, hright⟩ := hneither name hname domain hdomain
    rcases List.suffix_or_suffix_of_suffix hbelow h.suffix with hsuffix | hsuffix
    · exact hleft hsuffix
    · exact hright hsuffix
  exact ⟨hnot _ (by simp), hnot _ (by simp)⟩

/-- **An accepted URL names a host of Azure or the loopback, never another internal address, and
uses https or the loopback, exactly when its host is not below `localhost` or `127.0.0.1`.** -/
theorem sas_host_confined_iff (crate : UrlCrate) {sas : String}
    (haccepted : validateSasUrl crate sas = .ok ()) :
    ∃ url host, crate.parse sas = .ok url ∧ url.hostText crate = some host ∧
      (Confined url host ↔
        ¬ ".localhost".toList <:+ host.toList ∧ ¬ ".127.0.0.1".toList <:+ host.toList) := by
  obtain ⟨url, host, hparse, hhost, hnamed⟩ := validateSasUrl_eq_ok haccepted
  refine ⟨url, host, hparse, hhost, fun h => ?_, fun h => ?_⟩
  · rcases h.named with hloop | ⟨domain, hdomain, hbelow⟩
    · have hnames : ∀ name ∈ loopbackNames,
          ¬ ".localhost".toList <:+ name.toList ∧ ¬ ".127.0.0.1".toList <:+ name.toList := by
        decide
      exact hnames host hloop
    · exact not_below_azurite hdomain hbelow
  · -- What is at an Azurite name is a loopback name, and nothing is below one.
    have hconfined : host ∈ loopbackNames ∨
        url.scheme = "https" ∧ ∃ domain ∈ azureDomains, atOrBelow host domain := by
      rcases hnamed with hloop | ⟨hhttps, domain, hdomain, hbelow⟩
      · exact .inl hloop
      rcases List.mem_append.mp hdomain with hazure | hazurite
      · exact .inr ⟨hhttps, domain, hazure, hbelow⟩
      · simp only [List.mem_cons, List.not_mem_nil, or_false] at hazurite
        rcases hazurite with rfl | rfl
        · exact .inl (hbelow.resolve_right h.2 ▸ by decide)
        · exact .inl (hbelow.resolve_right h.1 ▸ by decide)
    refine ⟨hconfined.imp_right And.right, fun ip hip _ => ?_, ?_⟩
    · have hname : ∃ domain ∈ loopbackNames ++ azureDomains, atOrBelow host domain := by
        rcases hconfined with hloop | ⟨-, domain, hdomain, hbelow⟩
        · exact ⟨host, List.mem_append_left _ hloop, .inl rfl⟩
        · exact ⟨domain, List.mem_append_right _ hdomain, hbelow⟩
      rw [host_eq_of_ip hip hhost hname]
      decide
    · exact hconfined.symm.imp_left And.left

/-- A crate that knows two URLs. -/
def twoUrls : UrlCrate where
  parse s :=
    if s = "https://acct.blob.core.windows.net/data?sig=x" then
      .ok ⟨"https", some (.domain "acct.blob.core.windows.net")⟩
    else if s = "https://evil.localhost/data?sig=x" then .ok ⟨"https", some (.domain "evil.localhost")⟩
    else .error "relative URL without a base"
  ipv6Text _ := "::"
  parseIp _ := none

theorem account_url_confined :
    validateSasUrl twoUrls "https://acct.blob.core.windows.net/data?sig=x" = .ok () ∧
      ∃ url host, twoUrls.parse "https://acct.blob.core.windows.net/data?sig=x" = .ok url ∧
        url.hostText twoUrls = some host ∧
        (Confined url host ↔
          ¬ ".localhost".toList <:+ host.toList ∧ ¬ ".127.0.0.1".toList <:+ host.toList) :=
  have haccepted : validateSasUrl twoUrls "https://acct.blob.core.windows.net/data?sig=x" = .ok () :=
    validateSasUrl_of_below rfl rfl rfl rfl List.mem_cons_self (by decide)
  ⟨haccepted, sas_host_confined_iff twoUrls haccepted⟩

/-- **A host that is not Azure's is accepted.** -/
theorem evil_localhost_accepted :
    twoUrls.parse "https://evil.localhost/data?sig=x" =
        .ok ⟨"https", some (.domain "evil.localhost")⟩ ∧
      validateSasUrl twoUrls "https://evil.localhost/data?sig=x" = .ok () ∧
      ¬ Confined ⟨"https", some (.domain "evil.localhost")⟩ "evil.localhost" := by
  have hbelow : ".localhost".toList <:+ "evil.localhost".toList := by decide
  have hsfx : "localhost:10000" ∈ allowedEndpointSuffixes :=
    List.mem_append_right _ (List.mem_cons_of_mem _ List.mem_cons_self)
  have haccepted : validateSasUrl twoUrls "https://evil.localhost/data?sig=x" = .ok () :=
    validateSasUrl_of_below rfl rfl rfl rfl hsfx (by decide)
  refine ⟨rfl, haccepted, fun h => ?_⟩
  rcases h.named with hloop | ⟨domain, hdomain, hazure⟩
  · exact absurd hloop (by decide)
  · exact (not_below_azurite hdomain hazure).1 hbelow

end ParquetAzureFdw
