import PigOS.Kernel.Correctness.Heap
import PigOS.Kernel.Correctness.Numbers
import PigOS.Kernel.Correctness.LibcStubs
import PigOS.Drivers.Correctness.Network
import PigOS.Drivers.Correctness.Rtl8139
import PigOS.Drivers.Correctness.Transmit
import PigOS.Drivers.Correctness.Nic
import PigOS.Drivers.Correctness.Console
import PigOS.Crypto.Correctness.JsonBuffer
import PigOS.Crypto.Correctness.DiscordBody
import PigOS.Crypto.Correctness.Asn1Search
import PigOS.Crypto.Correctness.RsaCrt
import PigOS.Crypto.Correctness.Inverses
import PigOS.Crypto.Correctness.Primes
import PigOS.Crypto.Correctness.RsaGen
import PigOS.Crypto.Correctness.HostAddr
import PigOS.Crypto.Correctness.ClientHello
import PigOS.Crypto.Correctness.TlsKeys
import PigOS.Crypto.Correctness.X509Key
import PigOS.Crypto.Correctness.Aes
import PigOS.Crypto.Correctness.Sha256
import PigOS.Crypto.Correctness.WebSocket
import PigOS.Crypto.Correctness.Responses
import PigOS.Crypto.Correctness.DiscordChat
import PigOS.Shell.Correctness.Pipes
import PigOS.Shell.Correctness.Aliases
import PigOS.Shell.Correctness.Passwords
import PigOS.Shell.Correctness.Prompt
import PigOS.Shell.Correctness.Packages
import PigOS.Shell.Correctness.ViGrid
import PigOS.Shell.Correctness.Expansion
import PigOS.Shell.Correctness.Grep
import PigOS.Shell.Correctness.Creation
import PigOS.Shell.Correctness.Saves
