import Fasthttp.Body.Agree
import Fasthttp.Body.Alloc
import Fasthttp.Body.Numbers
import Fasthttp.Bytesconv
import Fasthttp.Client.Attempts
import Fasthttp.Client.Balance
import Fasthttp.Client.Clean
import Fasthttp.Client.Dialer
import Fasthttp.Client.DurationCleaner
import Fasthttp.Client.Hosts
import Fasthttp.Client.Idle
import Fasthttp.Client.Registry
import Fasthttp.Client.RoundTrip
import Fasthttp.Client.Served
import Fasthttp.Client.Slots
import Fasthttp.Client.Stop
import Fasthttp.Fasthttputil.PipeConns
import Fasthttp.Fs.Cache
import Fasthttp.Fs.VHost
import Fasthttp.Header.Encoding
import Fasthttp.Header.OneLine
import Fasthttp.Header.RequestSplit
import Fasthttp.Header.Smuggling
import Fasthttp.Header.TrailerExact
import Fasthttp.Header.WellFormed
import Fasthttp.Response.Copy
import Fasthttp.Response.Framing
import Fasthttp.Response.RoundTrip
import Fasthttp.Server.Accounting
import Fasthttp.Server.Close
import Fasthttp.Server.Counters
import Fasthttp.Server.Hijack
import Fasthttp.Server.Layers
import Fasthttp.Server.Workers
import Fasthttp.Uri.Decode
import Fasthttp.Uri.Update
import Fasthttp.UserData
