import Stonesh.Framework.StringH

/-!
# The options of the program

The record the configuration is read into, the keywords of the configuration file and the
defaults. The parser of a line reaches an option through a pointer to its field; the pointers are
the two enumerations `IntField` and `StrField`.
-/

namespace Stonesh

open CLib

structure Options where
  debug : Int
  logToStderr : Int
  useLdap : Int
  enableProxy : Int
  authType : Int
  allowfqdn : Int
  disableAuthorization : Int
  disableProxyAuthorization : Int
  host : Option CString
  port : Option CString
  authorizedServiceTag : Option CString
  proxyKeyword : Option CString
  ldapUri : Option CString
  ldapBase : Option CString
  hostsFile : Option CString
  usersFile : Option CString
  sshPath : Option CString
  ncPath : Option CString
  ncTimeout : Option CString
  geoipDat : Option CString
  geoip6Dat : Option CString
  deriving DecidableEq

def authTypeAny : Int := 0
def authTypeLocal : Int := 1
def authTypeLdap : Int := 2

inductive IntField
  | debug
  | logToStderr
  | useLdap
  | enableProxy
  | allowfqdn
  | disableAuthorization
  | disableProxyAuthorization
  deriving DecidableEq, Repr

inductive StrField
  | authorizedServiceTag
  | proxyKeyword
  | ldapUri
  | ldapBase
  | hostsFile
  | usersFile
  | sshPath
  | ncPath
  | ncTimeout
  | geoipDat
  | geoip6Dat
  deriving DecidableEq, Repr

namespace Options

def int (o : Options) : IntField → Int
  | .debug => o.debug
  | .logToStderr => o.logToStderr
  | .useLdap => o.useLdap
  | .enableProxy => o.enableProxy
  | .allowfqdn => o.allowfqdn
  | .disableAuthorization => o.disableAuthorization
  | .disableProxyAuthorization => o.disableProxyAuthorization

def setInt (o : Options) (f : IntField) (v : Int) : Options :=
  match f with
  | .debug => { o with debug := v }
  | .logToStderr => { o with logToStderr := v }
  | .useLdap => { o with useLdap := v }
  | .enableProxy => { o with enableProxy := v }
  | .allowfqdn => { o with allowfqdn := v }
  | .disableAuthorization => { o with disableAuthorization := v }
  | .disableProxyAuthorization => { o with disableProxyAuthorization := v }

def str (o : Options) : StrField → Option CString
  | .authorizedServiceTag => o.authorizedServiceTag
  | .proxyKeyword => o.proxyKeyword
  | .ldapUri => o.ldapUri
  | .ldapBase => o.ldapBase
  | .hostsFile => o.hostsFile
  | .usersFile => o.usersFile
  | .sshPath => o.sshPath
  | .ncPath => o.ncPath
  | .ncTimeout => o.ncTimeout
  | .geoipDat => o.geoipDat
  | .geoip6Dat => o.geoip6Dat

def setStr (o : Options) (f : StrField) (v : Option CString) : Options :=
  match f with
  | .authorizedServiceTag => { o with authorizedServiceTag := v }
  | .proxyKeyword => { o with proxyKeyword := v }
  | .ldapUri => { o with ldapUri := v }
  | .ldapBase => { o with ldapBase := v }
  | .hostsFile => { o with hostsFile := v }
  | .usersFile => { o with usersFile := v }
  | .sshPath => { o with sshPath := v }
  | .ncPath => { o with ncPath := v }
  | .ncTimeout => { o with ncTimeout := v }
  | .geoipDat => { o with geoipDat := v }
  | .geoip6Dat => { o with geoip6Dat := v }

section
variable (o : Options) (f g : IntField) (k l : StrField) (v : Int) (w : Option CString)

@[simp] theorem int_setInt : (o.setInt f v).int g = if g = f then v else o.int g := by
  cases f <;> cases g <;> rfl

@[simp] theorem str_setInt : (o.setInt f v).str k = o.str k := by cases f <;> cases k <;> rfl

@[simp] theorem int_setStr : (o.setStr k w).int f = o.int f := by cases k <;> cases f <;> rfl

@[simp] theorem str_setStr : (o.setStr k w).str l = if l = k then w else o.str l := by
  cases k <;> cases l <;> rfl

@[simp] theorem authType_setInt : (o.setInt f v).authType = o.authType := by cases f <;> rfl

@[simp] theorem authType_setStr : (o.setStr k w).authType = o.authType := by cases k <;> rfl

@[simp] theorem host_setInt : (o.setInt f v).host = o.host := by cases f <;> rfl

@[simp] theorem host_setStr : (o.setStr k w).host = o.host := by cases k <;> rfl

end

end Options

inductive OpCode
  | oBadOption
  | oAuthorizedServiceTag
  | oAuthType
  | oAllowFQDN
  | oDebug
  | oDisableAuthorization
  | oDisableProxyAuthorization
  | oLogToSTDERR
  | oUseLDAP
  | oProxyKeyword
  | oLDAPuri
  | oLDAPbase
  | oHostsFile
  | oUsersFile
  | oEnableProxy
  | oSSHPath
  | oNCPath
  | oNCTimeout
  | oGeoIP
  | oGeoIP6
  deriving DecidableEq, Repr

def keywords : List (String × OpCode) :=
  [ ("authorizedservicetag", .oAuthorizedServiceTag),
    ("allowfqdn", .oAllowFQDN),
    ("debug", .oDebug),
    ("logtostderr", .oLogToSTDERR),
    ("useldap", .oUseLDAP),
    ("proxykeyword", .oProxyKeyword),
    ("ldapuri", .oLDAPuri),
    ("ldapbase", .oLDAPbase),
    ("hostsfile", .oHostsFile),
    ("usersfile", .oUsersFile),
    ("enableproxy", .oEnableProxy),
    ("disableauthorization", .oDisableAuthorization),
    ("disableproxyauthorization", .oDisableProxyAuthorization),
    ("sshpath", .oSSHPath),
    ("ncpath", .oNCPath),
    ("nctimeout", .oNCTimeout),
    ("geoip", .oGeoIP),
    ("geoip6", .oGeoIP6) ]

def parseToken (cp : CString) : OpCode :=
  match keywords.find? fun k => strcasecmp cp (.lit k.1) = 0 with
  | some k => k.2
  | none => .oBadOption

/-- Where the switch over the opcode leads: to `parse_flag` or `parse_string` with its pointer
set, to the case of the timeout, to the early return, or to the default case. -/
inductive Target
  | bad
  | flag (f : IntField)
  | string (f : StrField)
  | timeout
  | unimplemented
  deriving DecidableEq, Repr

def OpCode.target : OpCode → Target
  | .oBadOption => .bad
  | .oDebug => .flag .debug
  | .oAuthorizedServiceTag => .string .authorizedServiceTag
  | .oNCTimeout => .timeout
  | .oProxyKeyword => .string .proxyKeyword
  | .oHostsFile => .string .hostsFile
  | .oUsersFile => .string .usersFile
  | .oLDAPuri => .string .ldapUri
  | .oLDAPbase => .string .ldapBase
  | .oSSHPath => .string .sshPath
  | .oNCPath => .string .ncPath
  | .oGeoIP => .string .geoipDat
  | .oGeoIP6 => .string .geoip6Dat
  | .oUseLDAP => .flag .useLdap
  | .oEnableProxy => .flag .enableProxy
  | .oLogToSTDERR => .flag .logToStderr
  | .oDisableAuthorization => .flag .disableAuthorization
  | .oDisableProxyAuthorization => .flag .disableProxyAuthorization
  | .oAllowFQDN => .flag .allowfqdn
  | .oAuthType => .unimplemented

def initializeOptions : Options where
  debug := -1
  logToStderr := -1
  useLdap := -1
  enableProxy := -1
  authType := -1
  allowfqdn := -1
  disableAuthorization := -1
  disableProxyAuthorization := -1
  host := none
  port := none
  authorizedServiceTag := none
  proxyKeyword := none
  ldapUri := none
  ldapBase := none
  hostsFile := none
  usersFile := none
  sshPath := none
  ncPath := none
  ncTimeout := none
  geoipDat := none
  geoip6Dat := none

def freeOptions (o : Options) : Options :=
  { o with
    ldapUri := none, ldapBase := none, ncPath := none, sshPath := none, proxyKeyword := none,
    hostsFile := none, usersFile := none, ncTimeout := none, authorizedServiceTag := none,
    host := none, port := none, geoipDat := none, geoip6Dat := none }

def fillInt (v d : Int) : Int := if v = -1 then d else v

def fillStr (v : Option CString) (d : String) : Option CString :=
  match v with
  | none => some (.lit d)
  | some s => some s

def fillDefaultOptions (o : Options) : Options :=
  let debug := fillInt o.debug 0
  let logToStderr := fillInt o.logToStderr 0
  let useLdap := fillInt o.useLdap 0
  let enableProxy := fillInt o.enableProxy 0
  let disableAuthorization := fillInt o.disableAuthorization 0
  let disableProxyAuthorization := fillInt o.disableProxyAuthorization 0
  let allowfqdn := fillInt o.allowfqdn 0
  let authType := fillInt o.authType
    (if disableAuthorization = 1 then authTypeAny
     else if useLdap = 1 then authTypeLdap else authTypeLocal)
  { o with
    debug, logToStderr, useLdap, enableProxy, authType, allowfqdn, disableAuthorization,
    disableProxyAuthorization
    authorizedServiceTag := fillStr o.authorizedServiceTag "proxy"
    proxyKeyword := fillStr o.proxyKeyword "direct"
    hostsFile := fillStr o.hostsFile "/etc/stonesh/hosts.lst"
    usersFile := fillStr o.usersFile "/etc/stonesh/users.lst"
    sshPath := fillStr o.sshPath "/usr/bin/ssh"
    ncPath := fillStr o.ncPath "/bin/nc"
    ncTimeout := fillStr o.ncTimeout "1"
    geoipDat := fillStr o.geoipDat "/usr/share/GeoIP/GeoIP.dat"
    geoip6Dat := fillStr o.geoip6Dat "/usr/share/GeoIP/GeoIPv6.dat" }

/-- The defaults of the string options; the two LDAP options have none. -/
def StrField.default : StrField → Option String
  | .authorizedServiceTag => some "proxy"
  | .proxyKeyword => some "direct"
  | .ldapUri => none
  | .ldapBase => none
  | .hostsFile => some "/etc/stonesh/hosts.lst"
  | .usersFile => some "/etc/stonesh/users.lst"
  | .sshPath => some "/usr/bin/ssh"
  | .ncPath => some "/bin/nc"
  | .ncTimeout => some "1"
  | .geoipDat => some "/usr/share/GeoIP/GeoIP.dat"
  | .geoip6Dat => some "/usr/share/GeoIP/GeoIPv6.dat"

section
variable (o : Options)

theorem int_fillDefaultOptions (f : IntField) :
    (fillDefaultOptions o).int f = fillInt (o.int f) 0 := by
  cases f <;> rfl

theorem str_fillDefaultOptions (f : StrField) :
    (fillDefaultOptions o).str f = (o.str f).or (f.default.map .lit) := by
  have hfill (v : Option CString) (d : String) : fillStr v d = v.or (some (.lit d)) := by
    cases v <;> rfl
  cases f
  case ldapUri => exact (Option.or_none).symm
  case ldapBase => exact (Option.or_none).symm
  all_goals exact hfill _ _

@[simp] theorem int_initializeOptions (f : IntField) : initializeOptions.int f = -1 := by
  cases f <;> rfl

@[simp] theorem str_initializeOptions (f : StrField) : initializeOptions.str f = none := by
  cases f <;> rfl

end

end Stonesh
