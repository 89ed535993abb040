import Stonesh.Framework.StringH
import Stonesh.Framework.Stream
import Stonesh.Util
import Stonesh.Records
import Stonesh.Tables
import Stonesh.AuthLocal.Record
import Stonesh.AuthLocal.Grants
import Stonesh.AuthLocal.Order
import Stonesh.AuthLocal.Blank
import Stonesh.AuthLocal.Table
import Stonesh.Readconf.ConfigLine
import Stonesh.Readconf.ConfigFile
import Stonesh.Readconf.Calls
import Stonesh.Readconf.RoundTrip
import Stonesh.Readconf.Timeout
import Stonesh.Readconf.Totality
import Stonesh.Readconf.Grammar
import Stonesh.Framework.WriteOnce
import Stonesh.Readconf.Merge
import Stonesh.Hosts
import Stonesh.Hosts.Lookup
import Stonesh.Hosts.Table
import Stonesh.Comments
import Stonesh.Framework.LdapFilter
import Stonesh.Framework.Trace
import Stonesh.AuthLdap
import Stonesh.Auth
import Stonesh.Backends
import Stonesh.Framework.Gateway
import Stonesh.Framework.Getopt
import Stonesh.Geoip
import Stonesh.Geoip.Countries
import Stonesh.Geoip.Private
import Stonesh.Main.Program
import Stonesh.Main.Command
import Stonesh.Main.Execution
import Stonesh.Main.Mode
import Stonesh.Main.Status
import Stonesh.Main.Prompt
import Stonesh.Main.Request
import Stonesh.Main.Pointers
import Stonesh.Main.Cleanup
import Stonesh.Main.Site
import Stonesh.Main.Change
import Stonesh.Main.Isolation
import Stonesh.Framework.Buffer
import Stonesh.Main.Cmdline
import Stonesh.Framework.Printf
import Stonesh.Log
import Stonesh.Framework.Erasure
import Stonesh.Main.Messages
import Stonesh.Main.Audit
import Stonesh.Main.Memory
import Stonesh.Framework.Frugal
import Stonesh.Main.Leaks
import Stonesh.Readconf.Faults
import Stonesh.Readconf.Messages
import Stonesh.AuthLdap.Faults
import Stonesh.Main.Faults
import Stonesh.Main.Normal
import Stonesh.AuthLdap.Closed
import Stonesh.AuthLdap.Cleanup
import Stonesh.AuthLdap.Filters
import Stonesh.Readconf.Messages
