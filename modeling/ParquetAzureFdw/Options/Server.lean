/-
# The options of a server and of a user mapping

`parse_server_options_from_slice`, `parse_user_mapping_options_from_slice` and
`validate_combo` of `src/fdw/options.rs`, and `build_credential` of `src/azure/auth.rs`,
which every scan, INSERT and UPDATE runs before it makes its client.

A client has two ways to send a secret away: a bearer token goes to the endpoint of the
server, a SAS URL is the address itself.  Both have been checked before a credential is
built (`credential_checked`).
-/

import ParquetAzureFdw.Options.SasUrl

namespace ParquetAzureFdw

/-! ### The server -/

/-- `AuthMethod`. -/
inductive AuthMethod where
  | managedIdentity
  | aadServicePrincipal
  | sasUrl
  deriving DecidableEq, Repr

/-- `parse_auth_method`. -/
def parseAuthMethod : String → FdwResult AuthMethod
  | "managed_identity" => .ok .managedIdentity
  | "aad_sp" => .ok .aadServicePrincipal
  | "sas_url" => .ok .sasUrl
  | "account_key" =>
    .error (.invalidOption ("auth_method='account_key' is not supported by azure_storage_blob 1.0; " ++
      "generate a container SAS client-side and use auth_method='sas_url'"))
  | other => .error (.invalidOption ("auth_method='" ++ other ++ "'"))

/-- `validate_account_name`. -/
def validateAccountName (name : String) : FdwResult Unit :=
  if (3 ≤ name.utf8ByteSize ∧ name.utf8ByteSize ≤ 24) ∧
      (name.toList.all fun c => c.isLower || c.isDigit) = true then .ok ()
  else .error (.invalidOption ("account_name must be 3-24 lowercase alphanumeric characters (got '" ++
    name ++ "')"))

/-- `validate_endpoint`. -/
def validateEndpoint (endpoint : String) : FdwResult Unit :=
  if '/' ∈ endpoint.toList ∨ '@' ∈ endpoint.toList ∨ '?' ∈ endpoint.toList then
    .error (.invalidOption ("endpoint must be a bare host(:port), not a URL (got '" ++ endpoint ++
      "')"))
  else if ∃ allowed ∈ allowedEndpointSuffixes,
      eqIgnoreAsciiCase endpoint.toList allowed.toList = true then .ok ()
  else .error (.invalidOption ("endpoint '" ++ endpoint ++
    "' is not in the allowlist of known Azure cloud suffixes"))

/-- The variables of `parse_server_options_from_slice`, with what they start from. -/
structure ServerOptionsRead where
  accountName : Option String := none
  endpoint : String := "blob.core.windows.net"
  authMethod : Option AuthMethod := none
  enablePushdown : Bool := true

/-- The option `enable_pushdown`. -/
def parseEnablePushdown (v : String) : FdwResult Bool :=
  match asciiLowercase v with
  | "true" | "on" | "1" => .ok true
  | "false" | "off" | "0" => .ok false
  | _ => .error (.invalidOption "enable_pushdown must be true|false")

/-- The body of the loop over the options of a server. -/
def readServerOption (acc : ServerOptionsRead) (option : String × String) :
    FdwResult ServerOptionsRead :=
  let v := option.2
  match option.1 with
  | "account_name" => .ok { acc with accountName := some v }
  | "endpoint" => .ok { acc with endpoint := v }
  | "auth_method" => do return { acc with authMethod := some (← parseAuthMethod v) }
  | "enable_pushdown" => do return { acc with enablePushdown := ← parseEnablePushdown v }
  | other => .error (.invalidOption ("unknown server option '" ++ other ++ "'"))

/-- `ServerOptions`. -/
structure ServerOptions where
  accountName : String
  endpoint : String
  authMethod : AuthMethod
  enablePushdown : Bool
  deriving DecidableEq, Repr

/-- `parse_server_options_from_slice`. -/
def parseServerOptionsFromSlice (kv : List (String × String)) : FdwResult ServerOptions := do
  let acc ← kv.foldlM readServerOption {}
  let accountName ← required "account_name" acc.accountName
  let authMethod ← required "auth_method" acc.authMethod
  validateAccountName accountName
  validateEndpoint acc.endpoint
  return { accountName, authMethod, endpoint := acc.endpoint, enablePushdown := acc.enablePushdown }

/-- What the options of a server satisfy. -/
structure AcceptedServer (server : ServerOptions) : Prop where
  account_ok : validateAccountName server.accountName = .ok ()
  endpoint_allowed : ∃ allowed ∈ allowedEndpointSuffixes,
    eqIgnoreAsciiCase server.endpoint.toList allowed.toList = true

/-- **A server that is accepted has a valid account name and an endpoint of the list.** -/
theorem parseServerOptionsFromSlice_eq_ok {kv : List (String × String)} {server : ServerOptions}
    (h : parseServerOptionsFromSlice kv = .ok server) : AcceptedServer server := by
  obtain ⟨acc, -, h⟩ := except_bind_eq_ok.mp h
  obtain ⟨accountName, -, h⟩ := except_bind_eq_ok.mp h
  obtain ⟨authMethod, -, h⟩ := except_bind_eq_ok.mp h
  obtain ⟨⟨⟩, haccount, h⟩ := except_bind_eq_ok.mp h
  obtain ⟨⟨⟩, hendpoint, h⟩ := except_bind_eq_ok.mp h
  obtain rfl := Except.ok.inj h
  refine ⟨haccount, ?_⟩
  unfold validateEndpoint at hendpoint
  split_ifs at hendpoint with hurl hallowed
  exact hallowed

/-! ### The user mapping -/

/-- `UserMappingOptions`. -/
structure UserMappingOptions where
  sasUrl : Option String := none
  deriving DecidableEq, Repr

/-- The body of the loop over the options of a user mapping. -/
def readUserMappingOption (crate : UrlCrate) (um : UserMappingOptions) (option : String × String) :
    FdwResult UserMappingOptions :=
  match option.1 with
  | "sas_url" => do
    validateSasUrl crate option.2
    return { um with sasUrl := some option.2 }
  | "account_key" =>
    .error (.invalidOption ("user mapping option 'account_key' is not supported; " ++
      "generate a container SAS client-side and set 'sas_url' instead"))
  | other => .error (.invalidOption ("unknown user mapping option '" ++ other ++ "'"))

/-- `parse_user_mapping_options_from_slice`. -/
def parseUserMappingOptionsFromSlice (crate : UrlCrate) (kv : List (String × String)) :
    FdwResult UserMappingOptions :=
  kv.foldlM (readUserMappingOption crate) {}

/-- The URL of a user mapping, if it has one, was checked. -/
def UserMappingOptions.Checked (crate : UrlCrate) (um : UserMappingOptions) : Prop :=
  ∀ sas, um.sasUrl = some sas → validateSasUrl crate sas = .ok ()

theorem readUserMappingOption_checked {crate : UrlCrate} {um um' : UserMappingOptions}
    {option : String × String} (h : readUserMappingOption crate um option = .ok um') :
    um'.Checked crate := by
  unfold readUserMappingOption at h
  split at h
  · obtain ⟨⟨⟩, hvalid, h⟩ := except_bind_eq_ok.mp h
    obtain rfl := Except.ok.inj h
    intro sas hsas
    exact Option.some.inj hsas ▸ hvalid
  · cases h
  · cases h

/-- Every URL that a user mapping was accepted with has passed `validate_sas_url`. -/
theorem parseUserMappingOptionsFromSlice_checked {crate : UrlCrate} {kv : List (String × String)}
    {um : UserMappingOptions} (h : parseUserMappingOptionsFromSlice crate kv = .ok um) :
    um.Checked crate :=
  foldlM_invariant (UserMappingOptions.Checked crate)
    (fun _ _ _ hstep _ => readUserMappingOption_checked hstep) h (fun _ hsas => by cases hsas)

/-! ### Credentials -/

/-- `validate_combo`. -/
def validateCombo (server : ServerOptions) (um : UserMappingOptions) : FdwResult Unit :=
  match server.authMethod with
  | .sasUrl => if um.sasUrl.isNone then .error (.missingOption "sas_url") else .ok ()
  | .aadServicePrincipal =>
    if um.sasUrl.isSome then
      .error (.invalidOption "auth_method='aad_sp' must not set user mapping option 'sas_url'")
    else .ok ()
  | .managedIdentity => .ok ()

/-- `Credential`; the token providers are those of the Azure SDK. -/
inductive Credential where
  | token
  | sasUrl (containerUrl : String)
  deriving DecidableEq, Repr

/-- `build_credential`.  `provider` is whether the SDK makes the token provider of a method, with
the environment it reads. -/
def buildCredential (provider : AuthMethod → FdwResult Unit) (method : AuthMethod)
    (sasUrl : Option String) : FdwResult Credential :=
  match method with
  | .managedIdentity | .aadServicePrincipal => do
    provider method
    return .token
  | .sasUrl => do return .sasUrl (← required "sas_url" sasUrl)

/-- The credential of a client, from the options of its server and its user mapping. -/
def clientCredential (crate : UrlCrate) (provider : AuthMethod → FdwResult Unit)
    (serverKv userKv : List (String × String)) : FdwResult (ServerOptions × Credential) := do
  let server ← parseServerOptionsFromSlice serverKv
  let um ← parseUserMappingOptionsFromSlice crate userKv
  validateCombo server um
  return (server, ← buildCredential provider server.authMethod um.sasUrl)

/-- **Where a secret goes was checked**: a token goes to an endpoint of the list, and a SAS URL has
passed `validate_sas_url`. -/
theorem credential_checked {crate : UrlCrate} {provider : AuthMethod → FdwResult Unit}
    {serverKv userKv : List (String × String)} {server : ServerOptions} {cred : Credential}
    (h : clientCredential crate provider serverKv userKv = .ok (server, cred)) :
    AcceptedServer server ∧ ∀ url, cred = .sasUrl url → validateSasUrl crate url = .ok () := by
  obtain ⟨server', hserver, h⟩ := except_bind_eq_ok.mp h
  obtain ⟨um, hum, h⟩ := except_bind_eq_ok.mp h
  obtain ⟨⟨⟩, -, h⟩ := except_bind_eq_ok.mp h
  obtain ⟨cred', hcred, h⟩ := except_bind_eq_ok.mp h
  obtain ⟨rfl, rfl⟩ := Prod.mk.inj (Except.ok.inj h)
  refine ⟨parseServerOptionsFromSlice_eq_ok hserver, fun url hurl => ?_⟩
  subst hurl
  refine parseUserMappingOptionsFromSlice_checked hum url ?_
  unfold buildCredential at hcred
  split at hcred
  · obtain ⟨⟨⟩, -, hcred⟩ := except_bind_eq_ok.mp hcred
    cases hcred
  · obtain ⟨⟨⟩, -, hcred⟩ := except_bind_eq_ok.mp hcred
    cases hcred
  · obtain ⟨sas, hsas, hcred⟩ := except_bind_eq_ok.mp hcred
    obtain rfl := Credential.sasUrl.inj (Except.ok.inj hcred)
    cases hurl : um.sasUrl <;> rw [hurl] at hsas <;> cases hsas
    rfl

end ParquetAzureFdw
